import GrammarKit.Span
import GrammarKit.Text.Basic

/-!
Alternatives of a rule or a group. What the body consists of is left open, because a body as it is
written and a body with its patterns resolved differ only in their items.
-/
namespace GrammarKit

structure Alternative (Item : Type) where
  doc : Option Text := none
  name : Option Text := none
  body : List Item
  span : Span
deriving DecidableEq, Inhabited

end GrammarKit
