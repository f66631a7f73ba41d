import GrammarKit.Text.Location
import GrammarKit.Text.Quoted

/-!
The error of a tokenizer: at a position no token rule matches.
-/
namespace GrammarKit

structure LexError where
  input : Text
  position : Int
  /-- The rules that were tried, in the order of trying. -/
  tried : List Text
deriving DecidableEq

/-- The message shows the next ten units of the input. -/
def LexError.message (e : LexError) : Text :=
  Text.ofString "LexError at " ++ Text.describeOffset (some e.input) e.position ++
    Text.ofString ": could not match a token starting with " ++
    Text.quoted (e.input.slice e.position (e.position + 10))

end GrammarKit
