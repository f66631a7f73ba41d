import GrammarKit.Alternative
import GrammarKit.Pattern.Matcher
import GrammarKit.Rule.Kind

/-!
Rules with their patterns resolved: the form that is matched, tokenized and parsed with.
-/
namespace GrammarKit

structure Item (Inner : Type) where
  inner : Inner
  quantifier : Quantifier
deriving DecidableEq

inductive Singular where
  | group (alternatives : List (Alternative (Item Singular)))
  | symbol (name : Text) (span : Span)
  | literal (source : Text) (matchers : List Matcher) (span : Span)
  | charset (source : Text) (matcher : Matcher) (span : Span)

instance : Inhabited Singular := ⟨.symbol [] default⟩

abbrev Body := List (Item Singular)

abbrev Alternation := List (Alternative (Item Singular))

structure Reference where
  name : Text
  span : Span
deriving DecidableEq

mutual

/-- The symbols named in a singular, at any depth of groups, from left to right. -/
def Singular.references : Singular → List Reference
  | .group alternatives => Alternation.references alternatives
  | .symbol name span => [⟨name, span⟩]
  | .literal .. => []
  | .charset .. => []

def Alternation.references : List (Alternative (Item Singular)) → List Reference
  | [] => []
  | a :: rest => Alternative.references a ++ Alternation.references rest

def Alternative.references : Alternative (Item Singular) → List Reference
  | ⟨_, _, body, _⟩ => Body.references body

def Body.references : List (Item Singular) → List Reference
  | [] => []
  | i :: rest => Item.references i ++ Body.references rest

def Item.references : Item Singular → List Reference
  | ⟨inner, _⟩ => Singular.references inner

end

structure Rule where
  name : Text
  kind : RuleKind
  /-- The alternatives of all definitions of the rule, in source order. -/
  alternatives : Alternation
  /-- When the rule was first defined; of two longest matches the earlier rule wins. -/
  index : Int
  doc : Option Text
  /-- Whether the rule was made for a pattern in a production. -/
  synthetic : Bool
  span : Span

namespace Rule

def isLexical (rule : Rule) : Bool := rule.kind.isLexical

def references (rule : Rule) : List Reference := Alternation.references rule.alternatives

end Rule

end GrammarKit
