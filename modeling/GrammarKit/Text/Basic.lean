/-!
Text as a list of UTF-16 code units. Every offset, width and column of the library
counts units, and a text may hold a surrogate without its partner, so the list of
units and not a string of characters is the basic type.
-/
namespace GrammarKit

abbrev CodeUnit := UInt16

abbrev Text := List CodeUnit

instance : LawfulBEq Text := inferInstance

abbrev CodePoint := Nat

def CodePoint.max : CodePoint := 0x10FFFF

def unit (c : Char) : CodeUnit := UInt16.ofNat c.toNat

namespace CodeUnit

def isHighSurrogate (u : CodeUnit) : Bool := 0xD800 ≤ u && u ≤ 0xDBFF

def isLowSurrogate (u : CodeUnit) : Bool := 0xDC00 ≤ u && u ≤ 0xDFFF

def isSurrogate (u : CodeUnit) : Bool := 0xD800 ≤ u && u ≤ 0xDFFF

def pairValue (high low : CodeUnit) : CodePoint :=
  0x10000 + (high.toNat - 0xD800) * 0x400 + (low.toNat - 0xDC00)

end CodeUnit

namespace Text

def ofCodePoint (c : CodePoint) : Text :=
  if c < 0x10000 then [UInt16.ofNat c]
  else [UInt16.ofNat (0xD800 + (c - 0x10000) / 0x400), UInt16.ofNat (0xDC00 + (c - 0x10000) % 0x400)]

def ofString (s : String) : Text := s.toList.flatMap fun c => ofCodePoint c.toNat

/-- The code point at the front of a text with its width in units: a high surrogate and
a low surrogate right after it are one code point of width 2, all else has width 1. -/
def codePoint? : Text → Option (CodePoint × Nat)
  | [] => none
  | [u] => some (u.toNat, 1)
  | u :: v :: _ =>
    if CodeUnit.isHighSurrogate u && CodeUnit.isLowSurrogate v then
      some (CodeUnit.pairValue u v, 2)
    else some (u.toNat, 1)

/-- What a reader at an offset has ahead: nothing where the text has not begun or is over. -/
def ahead (t : Text) (offset : Int) : Text := if offset < 0 then [] else t.drop offset.toNat

def codePointFrom (t : Text) (offset : Int) : Option (CodePoint × Nat) :=
  codePoint? (t.ahead offset)

theorem codePoint?_width {t : Text} {c : CodePoint} {w : Nat} (h : codePoint? t = some (c, w)) :
    0 < w ∧ w ≤ t.length := by
  match t, h with
  | [u], h =>
    simp only [codePoint?, Option.some.injEq, Prod.mk.injEq] at h
    obtain ⟨-, rfl⟩ := h
    simp
  | u :: v :: r, h =>
    simp only [codePoint?] at h
    split at h <;> simp only [Option.some.injEq, Prod.mk.injEq] at h <;>
      obtain ⟨-, rfl⟩ := h <;> simp

theorem codePoint?_eq_none {t : Text} : codePoint? t = none ↔ t = [] := by
  match t with
  | [] => simp [codePoint?]
  | [u] => simp [codePoint?]
  | u :: v :: r =>
    simp only [codePoint?]
    split <;> simp

/-- A place counted from the front, or from the back when it is negative. -/
def place (t : Text) (i : Int) : Nat :=
  if i < 0 then (i + t.length).toNat else i.toNat

def slice (t : Text) (start stop : Int) : Text :=
  (t.take (t.place stop)).drop (t.place start)

def padLeft (fill : CodeUnit) (width : Nat) (t : Text) : Text :=
  List.replicate (width - t.length) fill ++ t

def padRight (fill : CodeUnit) (width : Nat) (t : Text) : Text :=
  t ++ List.replicate (width - t.length) fill

def join (separator : Text) (parts : List Text) : Text :=
  separator.intercalate parts

def digit (n : Nat) : CodeUnit :=
  if n < 10 then UInt16.ofNat (48 + n) else UInt16.ofNat (87 + n)

def digits (base : Nat) (n : Nat) : Text :=
  if 1 < base ∧ base ≤ n then digits base (n / base) ++ [digit (n % base)]
  else [digit n]
termination_by n
decreasing_by exact Nat.div_lt_self (by omega) (by omega)

def ofNat (n : Nat) : Text := digits 10 n

def ofIntBase (base : Nat) (i : Int) : Text :=
  if i < 0 then unit '-' :: digits base i.natAbs else digits base i.natAbs

def ofInt (i : Int) : Text := ofIntBase 10 i

def lines (t : Text) : List Text := t.splitOn (unit '\n')

/-- Whether no surrogate stands without its partner. -/
def isPaired : Text → Bool
  | [] => true
  | [u] => !CodeUnit.isSurrogate u
  | u :: v :: r =>
    if CodeUnit.isHighSurrogate u && CodeUnit.isLowSurrogate v then isPaired r
    else !CodeUnit.isSurrogate u && isPaired (v :: r)

/-- The characters of a text, after those in `done`, the last of them first. A lone surrogate
becomes U+FFFD. -/
def charsFrom (done : List Char) : Text → List Char
  | [] => done.reverse
  | [u] => ((if CodeUnit.isSurrogate u then '\uFFFD' else Char.ofNat u.toNat) :: done).reverse
  | u :: v :: r =>
    if CodeUnit.isHighSurrogate u && CodeUnit.isLowSurrogate v then
      charsFrom (Char.ofNat (CodeUnit.pairValue u v) :: done) r
    else
      charsFrom ((if CodeUnit.isSurrogate u then '\uFFFD' else Char.ofNat u.toNat) :: done) (v :: r)

def toString (t : Text) : String := String.ofList (charsFrom [] t)

/-- A text as it comes back from a file. -/
def repair (t : Text) : Text := if t.isPaired then t else ofString t.toString

end Text

end GrammarKit
