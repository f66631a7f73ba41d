import GrammarKit.Error.Fault
import GrammarKit.Sort

/-!
Matchers: sets of code points, each a union of ranges or the complement of one. The ranges are
held in a normal form, sorted and with overlapping or touching ranges joined, so that a binary
search decides membership.
-/
namespace GrammarKit

/-- All integers from one end to the other, both included; none if the ends are reversed. -/
structure CodeRange where
  first : Int
  last : Int
deriving DecidableEq

namespace CodeRange

def Contains (range : CodeRange) (c : Int) : Prop := range.first ≤ c ∧ c ≤ range.last

instance (range : CodeRange) (c : Int) : Decidable (range.Contains c) :=
  inferInstanceAs (Decidable (_ ∧ _))

def le (a b : CodeRange) : Bool :=
  a.first < b.first || (a.first == b.first && a.last ≤ b.last)

/-- Joins each range into the one before it if the two overlap or touch; `current` is the
range that may still grow. -/
def joinFrom (current : CodeRange) : List CodeRange → List CodeRange
  | [] => [current]
  | r :: rest =>
    if r.first ≤ current.last + 1 then joinFrom ⟨current.first, max current.last r.last⟩ rest
    else current :: joinFrom r rest

def joinSorted : List CodeRange → List CodeRange
  | [] => []
  | r :: rest => joinFrom r rest

def normalize (ranges : List CodeRange) : List CodeRange :=
  joinSorted (inOrder le ranges)

end CodeRange

structure Matcher where
  ranges : Array CodeRange
  negated : Bool
deriving DecidableEq

namespace Matcher

def ofRanges (ranges : List CodeRange) (negated : Bool) : Matcher :=
  ⟨(CodeRange.normalize ranges).toArray, negated⟩

def single (c : CodePoint) : Matcher := ofRanges [⟨c, c⟩] false

def any : Matcher := ofRanges [] true

/-- Whether one of the ranges from `lo` up to but not including `hi` holds the code point,
by binary search. -/
def searchFrom (ranges : Array CodeRange) (c : Int) (lo hi : Nat) : Bool :=
  if lo < hi then
    let mid := (lo + hi - 1) / 2
    match ranges[mid]? with
    | none => false
    | some r =>
      if c < r.first then searchFrom ranges c lo mid
      else if r.last < c then searchFrom ranges c (mid + 1) hi
      else true
  else false
termination_by hi - lo

def covers (m : Matcher) (c : Int) : Bool := searchFrom m.ranges c 0 m.ranges.size

def accepts (m : Matcher) (c : Int) : Bool := m.covers c != m.negated

/-- A code point as a matcher is printed: control characters by number, the four characters
that mean something inside a set by an escape. -/
def renderCodePoint (c : Int) : Except Fault Text :=
  if c < 0x20 || c = 0x7F then
    .ok (Text.ofString "#x" ++ Text.padLeft (unit '0') 2 (Text.ofIntBase 16 c))
  else if (CodePoint.max : Int) < c then .error (.invalidCodePoint c)
  else
    let t := Text.ofCodePoint c.toNat
    .ok (if t ∈ [[unit '#'], [unit '^'], [unit '-'], [unit ']']] then unit '#' :: t else t)

def renderRange (r : CodeRange) : Except Fault Text :=
  if r.first = r.last then renderCodePoint r.first
  else do
    let first ← renderCodePoint r.first
    let last ← renderCodePoint r.last
    .ok (first ++ unit '-' :: last)

def render (m : Matcher) : Except Fault Text :=
  let set := do
    let entries ← m.ranges.toList.mapM renderRange
    .ok (unit '[' :: (if m.negated then [unit '^'] else []) ++ entries.flatten ++ [unit ']'])
  match m.negated, m.ranges.toList with
  | false, [r] =>
    if r.first = r.last then do
      let t ← renderCodePoint r.first
      .ok (unit '\'' :: t ++ [unit '\''])
    else set
  | _, _ => set

end Matcher

end GrammarKit
