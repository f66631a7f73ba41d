import GrammarKit.Error.Grammar

/-!
Escape sequences: the sign `#` and a letter or punctuation mark for one code point, or the sign,
one of `x`, `u`, `U` and two, four or eight hexadecimal digits. How far a sequence reaches is
known without knowing whether it is valid; reading it checks that too.
-/
namespace GrammarKit.Escape

def sign : CodeUnit := unit '#'

def simple? (u : CodeUnit) : Option CodePoint :=
  if u = unit 't' then some 0x09
  else if u = unit 'n' then some 0x0A
  else if u = unit 'r' then some 0x0D
  else if u = unit '#' || u = unit '\'' || u = unit '"' || u = unit '-' || u = unit '^' ||
      u = unit ']' then some u.toNat
  else none

def digitCount? (u : CodeUnit) : Option Nat :=
  if u = unit 'x' then some 2
  else if u = unit 'u' then some 4
  else if u = unit 'U' then some 8
  else none

def digitValue? (u : CodeUnit) : Option Nat :=
  if unit '0' ≤ u && u ≤ unit '9' then some (u.toNat - 48)
  else if unit 'a' ≤ u && u ≤ unit 'f' then some (u.toNat - 87)
  else if unit 'A' ≤ u && u ≤ unit 'F' then some (u.toNat - 55)
  else none

def isDigit (u : CodeUnit) : Bool := (digitValue? u).isSome

def valueOf (digits : Text) : Nat :=
  digits.foldl (fun n u => 16 * n + (digitValue? u).getD 0) 0

/-- The width of the sequence whose sign stands before `rest`. -/
def extent (rest : Text) : Nat :=
  match rest with
  | [] => 1
  | u :: r =>
    match digitCount? u with
    | some n => 2 + ((r.take n).takeWhile isDigit).length
    | none => 2

theorem extent_pos (rest : Text) : 0 < extent rest := by
  unfold extent
  split
  · omega
  · split <;> omega

/-- A sequence that was read, or the width of what is not one. -/
inductive Outcome where
  | valid (codePoint : CodePoint) (width : Nat)
  | invalid (width : Nat)
deriving DecidableEq

def decode (rest : Text) : Outcome :=
  match rest with
  | [] => .invalid 1
  | u :: r =>
    match simple? u, digitCount? u with
    | some c, _ => .valid c 2
    | none, none => .invalid 2
    | none, some n =>
      let digits := r.take n
      if digits.length = n && digits.all isDigit then
        if valueOf digits ≤ CodePoint.max then .valid (valueOf digits) (2 + n) else .invalid (2 + n)
      else .invalid (2 + digits.length)

def after (t : Text) (offset : Int) : Text := t.ahead (offset + 1)

/-- The width of the sequence at an offset, as far as the text goes; none or less past its
end. -/
def extentAt (t : Text) (offset : Int) : Int :=
  if 0 ≤ offset + 1 ∧ offset + 1 < t.length then extent (after t offset)
  else min 2 (t.length - offset)

/-- Reads the sequence at an offset of a text that starts at `base` in the grammar. -/
def readAt (t : Text) (offset : Int) (base : Int) (rule : Option Text) :
    Except GrammarError (CodePoint × Nat) :=
  match decode (after t offset) with
  | .valid c width => .ok (c, width)
  | .invalid width =>
    .error {
      problem := .invalidEscape (t.slice offset (offset + width))
      rule := rule
      span := some ⟨base + offset, base + offset + width⟩ }

end GrammarKit.Escape
