/-!
Half-open stretches of a text. The ends are integers, since a span may be moved to where no
text is.
-/
namespace GrammarKit

structure Span where
  start : Int
  stop : Int
deriving DecidableEq, Inhabited

namespace Span

def empty (offset : Int) : Span := ⟨offset, offset⟩

def shift (span : Span) (offset : Int) : Span := ⟨span.start + offset, span.stop + offset⟩

def through (first last : Span) : Span := ⟨first.start, last.stop⟩

end Span

end GrammarKit
