import GrammarKit.Text.Basic

/-!
Answers that come with a log.
-/
namespace GrammarKit

/-- An answer and the lines that were logged on the way to it. -/
structure Logged (α : Type) where
  answer : α
  log : List Text

end GrammarKit
