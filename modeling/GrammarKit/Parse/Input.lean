import GrammarKit.Token

/-!
What a parser reads: characters, or tokens that a tokenizer made of them. A cursor counts units of a
text and members of a list of tokens; its position is an offset in the text in either case.
-/
namespace GrammarKit

inductive Input where
  | text (t : Text)
  | tokens (ts : Array Token)

namespace Input

def length : Input → Nat
  | text t => t.length
  | tokens ts => ts.size

/-- The offset of a cursor. After the last token it is where that token ends. -/
def position (input : Input) (cursor : Nat) : Int :=
  match input with
  | text _ => cursor
  | tokens ts =>
    match ts[cursor]? with
    | some t => t.span.start
    | none => (ts.back?.map fun t => t.span.stop).getD 0

end Input

end GrammarKit
