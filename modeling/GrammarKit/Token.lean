import GrammarKit.Palette
import GrammarKit.Span

/-!
Tokens: one match of a token rule, with the text it took and where it took it.
-/
namespace GrammarKit

structure Token where
  /-- The token rule that matched. -/
  name : Text
  text : Text
  span : Span
deriving DecidableEq, Inhabited

def Token.render (palette : Palette) (token : Token) : Text :=
  palette.paint .green (unit '<' :: token.name ++ [unit '>']) ++ token.text ++
    palette.paint .green (Text.ofString "</" ++ token.name ++ [unit '>'])

end GrammarKit
