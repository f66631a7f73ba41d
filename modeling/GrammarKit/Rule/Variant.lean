import GrammarKit.Error.Grammar
import GrammarKit.NameTable
import GrammarKit.Rule.Set

/-!
Variant tags: each alternative of a production has a tag, either its own name or one made of the
rule's name and the alternative's position, and no production has the same tag twice.
-/
namespace GrammarKit

structure Variant where
  tag : Text
  /-- The position of the alternative among all alternatives of the rule. -/
  index : Nat
  explicit : Bool
  doc : Option Text
deriving DecidableEq

/-- The nodes that a production makes: one variant for each alternative. -/
structure NodeType where
  rule : Text
  doc : Option Text
  variants : List Variant
deriving DecidableEq

def Variant.generatedTag (rule : Text) (index : Int) : Text := rule ++ unit '_' :: Text.ofInt index

def Alternative.tag {Item : Type} (a : Alternative Item) (rule : Text) (index : Nat) : Text :=
  a.name.getD (Variant.generatedTag rule index)

namespace Variant

def ofAlternative {Item : Type} (rule : Text) (a : Alternative Item) (index : Nat) : Variant :=
  { tag := a.tag rule index, index := index, explicit := a.name.isSome, doc := a.doc }

def duplicate (rule tag : Text) (span : Span) : GrammarError :=
  { problem := .duplicateVariantName tag, rule := some rule, span := some span }

/-- The variants of a row of alternatives, the first of them at position `index`, with tags that
are not among `seen`. -/
def tagFrom (rule : Text) (index : Nat) (seen : List Text) :
    Alternation → Except GrammarError (List Variant)
  | [] => .ok []
  | a :: rest =>
    let v := ofAlternative rule a index
    if v.tag ∈ seen then .error (duplicate rule v.tag a.span)
    else do
      let others ← tagFrom rule (index + 1) (v.tag :: seen) rest
      .ok (v :: others)

end Variant

structure VariantTable where
  nodeTypes : List NodeType

namespace VariantTable

def empty : VariantTable := ⟨[]⟩

def get? (table : VariantTable) (rule : Text) : Option NodeType :=
  table.nodeTypes.find? fun t => decide (t.rule = rule)

def variant? (table : VariantTable) (rule : Text) (index : Int) : Option Variant :=
  if index < 0 then none else (table.get? rule).bind fun t => t.variants[index.toNat]?

/-- The tag of an alternative, a generated one for what the table does not know. -/
def tag (table : VariantTable) (rule : Text) (index : Int) : Text :=
  ((table.variant? rule index).map Variant.tag).getD (Variant.generatedTag rule index)

def ofRules (rs : RuleSet) : Except GrammarError VariantTable := do
  let nodeTypes ← rs.productions.mapM fun rule => do
    let variants ← Variant.tagFrom rule.name 0 [] rule.alternatives
    .ok { rule := rule.name, doc := rule.doc, variants := variants : NodeType }
  .ok ⟨nodeTypes⟩

end VariantTable

end GrammarKit
