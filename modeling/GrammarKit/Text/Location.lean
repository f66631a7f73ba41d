import GrammarKit.Text.Basic

/-!
Lines and columns of offsets. Both count from 1; the column of an offset past the end goes
on counting from the start of the last line.
-/
namespace GrammarKit

structure Location where
  line : Nat
  column : Int
deriving DecidableEq

namespace Text

def locateFrom (line lineStart here : Nat) : (count : Nat) → Text → Nat × Nat
  | 0, _ => (line, lineStart)
  | _, [] => (line, lineStart)
  | n + 1, u :: r =>
    if u = unit '\n' then locateFrom (line + 1) (here + 1) (here + 1) n r
    else locateFrom line lineStart (here + 1) n r

def locate (t : Text) (offset : Int) : Location :=
  let (line, lineStart) := locateFrom 1 0 0 offset.toNat t
  { line := line, column := offset - lineStart + 1 }

/-- An offset as messages name it: by line and column when the text is known. -/
def describeOffset (source : Option Text) (offset : Int) : Text :=
  match source with
  | none => ofString "offset " ++ ofInt offset
  | some t => ofNat (t.locate offset).line ++ unit ':' :: ofInt (t.locate offset).column

def excerpt (t : Text) (offset : Int) : List Text :=
  let loc := t.locate offset
  let number := ofNat loc.line ++ ofString ": "
  [number ++ t.lines[loc.line - 1]?.getD [],
    padLeft (unit '-') (number.length + loc.column).toNat (ofString "^")]

end Text

end GrammarKit
