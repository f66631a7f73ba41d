import GrammarKit.Alternative
import GrammarKit.Rule.Kind

/-!
Rule definitions as they are written, before any pattern is resolved and before definitions of the
same name are merged.
-/
namespace GrammarKit.Source

structure Item (Inner : Type) where
  inner : Inner
  quantifier : Quantifier
  span : Span
deriving DecidableEq

inductive Singular where
  | group (alternatives : List (Alternative (Item Singular))) (span : Span)
  | symbol (name : Text) (span : Span)
  | literal (text : Text) (span : Span)
  | charset (text : Text) (span : Span)
  | escape (text : Text) (span : Span)

instance : Inhabited Singular := ⟨.symbol [] default⟩

abbrev Body := List (Item Singular)

abbrev Alternation := List (Alternative (Item Singular))

def Singular.span : Singular → Span
  | group _ span | symbol _ span | literal _ span | charset _ span | escape _ span => span

inductive DefinitionKind where
  | production
  | token
deriving DecidableEq

structure Definition where
  doc : Option Text := none
  name : Text
  kind : DefinitionKind
  alternatives : Alternation
  span : Span

end GrammarKit.Source
