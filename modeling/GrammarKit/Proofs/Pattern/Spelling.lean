import GrammarKit.Pattern.Escape
import Mathlib.Data.List.Forall2
import Mathlib.Data.Nat.Digits.Defs
import Mathlib.Tactic.Ring

/-!
The spellings of a code point in a pattern: the character itself, or an escape sequence. The
sequences are described by two tables and by the digits of either case. Main statements: a sequence
is decoded to its code point whatever follows, and what can be decoded is such a sequence; a
character that is no surrogate is read as itself.
-/
namespace GrammarKit

def CodePoint.IsSurrogate (c : Nat) : Prop := 0xD800 ≤ c ∧ c ≤ 0xDFFF

instance (c : Nat) : Decidable (CodePoint.IsSurrogate c) := inferInstanceAs (Decidable (_ ∧ _))

namespace CodeUnit

variable {u : CodeUnit}

theorem isHighSurrogate_iff : isHighSurrogate u = true ↔ 0xD800 ≤ u.toNat ∧ u.toNat ≤ 0xDBFF := by
  simp [isHighSurrogate, UInt16.le_iff_toNat_le]

theorem isLowSurrogate_iff : isLowSurrogate u = true ↔ 0xDC00 ≤ u.toNat ∧ u.toNat ≤ 0xDFFF := by
  simp [isLowSurrogate, UInt16.le_iff_toNat_le]

theorem isSurrogate_iff : isSurrogate u = true ↔ CodePoint.IsSurrogate u.toNat := by
  simp [isSurrogate, CodePoint.IsSurrogate, UInt16.le_iff_toNat_le]

theorem isSurrogate_of_low (h : isLowSurrogate u = true) : isSurrogate u = true := by
  rw [isLowSurrogate_iff] at h
  rw [isSurrogate_iff, CodePoint.IsSurrogate]
  omega

end CodeUnit

namespace Text

open CodeUnit

theorem ofCodePoint_toNat (u : CodeUnit) : ofCodePoint u.toNat = [u] := by
  have hlt := u.toNat_lt
  rw [ofCodePoint, if_pos (by simpa using hlt), UInt16.ofNat_toNat]

section Pairs

variable {u v : CodeUnit}

theorem add_eq_pairValue (u v : CodeUnit) :
    (0x10000 : Nat) + (u.toNat - 0xD800) * 0x400 + (v.toNat - 0xDC00) = pairValue u v := rfl

theorem pairValue_bounds (hu : isHighSurrogate u = true) (hv : isLowSurrogate v = true) :
    (0x10000 : Nat) ≤ pairValue u v ∧ (CodePoint.max : Nat) ≥ pairValue u v := by
  rw [isHighSurrogate_iff] at hu
  rw [isLowSurrogate_iff] at hv
  rw [← add_eq_pairValue]
  show _ ∧ (0x10FFFF : Nat) ≥ _
  omega

/-- The halves of a pair write its value. -/
theorem ofCodePoint_pairValue (hu : isHighSurrogate u = true) (hv : isLowSurrogate v = true) :
    ofCodePoint (pairValue u v) = [u, v] := by
  have hbounds := pairValue_bounds hu hv
  rw [isHighSurrogate_iff] at hu
  rw [isLowSurrogate_iff] at hv
  rw [ofCodePoint, if_neg (Nat.not_lt.mpr hbounds.1), ← add_eq_pairValue]
  have hhigh : 0xD800 + (0x10000 + (u.toNat - 0xD800) * 0x400 + (v.toNat - 0xDC00) - 0x10000) /
      0x400 = u.toNat := by omega
  have hlow : 0xDC00 + (0x10000 + (u.toNat - 0xD800) * 0x400 + (v.toNat - 0xDC00) - 0x10000) %
      0x400 = v.toNat := by omega
  rw [hhigh, hlow, UInt16.ofNat_toNat, UInt16.ofNat_toNat]

theorem exists_toNat_eq {n : Nat} (h : n < 0x10000) : ∃ u : CodeUnit, u.toNat = n :=
  ⟨UInt16.ofNat n, UInt16.toNat_ofNat_of_lt' h⟩

/-- A code point that needs two units is the value of a pair. -/
theorem exists_pair {c : Nat} (hlong : 0x10000 ≤ c) (hc : c ≤ CodePoint.max) :
    ∃ u v, isHighSurrogate u = true ∧ isLowSurrogate v = true ∧ c = pairValue u v := by
  replace hc : c ≤ 0x10FFFF := hc
  obtain ⟨u, hu⟩ := exists_toNat_eq (n := 0xD800 + (c - 0x10000) / 0x400) (by omega)
  obtain ⟨v, hv⟩ := exists_toNat_eq (n := 0xDC00 + (c - 0x10000) % 0x400) (by omega)
  refine ⟨u, v, isHighSurrogate_iff.mpr (by omega), isLowSurrogate_iff.mpr (by omega), ?_⟩
  rw [← add_eq_pairValue, hu, hv]
  omega

theorem codePoint?_pair (hu : isHighSurrogate u = true) (hv : isLowSurrogate v = true)
    (rest : Text) : codePoint? (u :: v :: rest) = some (pairValue u v, 2) := by
  simp [codePoint?, hu, hv]

/-- Without its partner behind it a unit is read by itself. -/
theorem codePoint?_unit {rest : Text}
    (hlone : isHighSurrogate u = true → ∀ v ∈ rest.head?, isLowSurrogate v = false) :
    codePoint? (u :: rest) = some (u.toNat, 1) := by
  cases rest with
  | nil => rfl
  | cons v rest =>
    rw [codePoint?, if_neg]
    intro hpair
    rw [Bool.and_eq_true] at hpair
    rw [hlone hpair.1 v rfl] at hpair
    cases hpair.2

end Pairs

/-- What is read in front of a text is a unit by itself, or both halves of a pair. -/
theorem codePoint?_cons {u : CodeUnit} {r : Text} {c : CodePoint} {width : Nat}
    (h : codePoint? (u :: r) = some (c, width)) :
    (c = u.toNat ∧ width = 1 ∧
        (isHighSurrogate u = true → ∀ v ∈ r.head?, isLowSurrogate v = false)) ∨
      ∃ v rest, r = v :: rest ∧ isHighSurrogate u = true ∧ isLowSurrogate v = true ∧
        c = pairValue u v ∧ width = 2 := by
  cases r with
  | nil =>
    cases h
    exact Or.inl ⟨rfl, rfl, fun _ => nofun⟩
  | cons v rest =>
    simp only [codePoint?] at h
    split at h
    · next hpair =>
      simp only [Option.some.injEq, Prod.mk.injEq] at h
      rw [Bool.and_eq_true] at hpair
      exact Or.inr ⟨v, rest, rfl, hpair.1, hpair.2, h.1.symm, h.2.symm⟩
    · next hpair =>
      simp only [Option.some.injEq, Prod.mk.injEq] at h
      refine Or.inl ⟨h.1.symm, h.2.symm, fun hu v' hv' => ?_⟩
      cases hv'
      simpa [hu] using hpair

/-- A character that is no surrogate is read as itself, whatever follows. -/
theorem codePoint?_ofCodePoint {c : Nat} (hc : c ≤ CodePoint.max)
    (hscalar : ¬ CodePoint.IsSurrogate c) (rest : Text) :
    codePoint? (ofCodePoint c ++ rest) = some (c, (ofCodePoint c).length) := by
  by_cases hlong : 0x10000 ≤ c
  · obtain ⟨u, v, hu, hv, hvalue⟩ := exists_pair hlong hc
    rw [hvalue, ofCodePoint_pairValue hu hv]
    exact codePoint?_pair hu hv rest
  · have hshort : c < 0x10000 := by omega
    have hvalue : (UInt16.ofNat c).toNat = c := UInt16.toNat_ofNat_of_lt' hshort
    have hhigh : isHighSurrogate (UInt16.ofNat c) = false := by
      rw [Bool.eq_false_iff, ne_eq, isHighSurrogate_iff, hvalue]
      unfold CodePoint.IsSurrogate at hscalar
      omega
    have hlone : isHighSurrogate (UInt16.ofNat c) = true →
        ∀ v ∈ rest.head?, isLowSurrogate v = false := by
      intro htrue
      rw [hhigh] at htrue
      cases htrue
    rw [ofCodePoint, if_pos hshort, List.singleton_append, codePoint?_unit hlone, hvalue]
    rfl

end Text

namespace Escape

def marks : List (Char × Char) :=
  [('t', '\t'), ('n', '\n'), ('r', '\r'), ('#', '#'), ('\'', '\''), ('"', '"'), ('-', '-'),
    ('^', '^'), (']', ']')]

def letters : List (Char × Nat) := [('x', 2), ('u', 4), ('U', 8)]

theorem simple?_eq_some {u : CodeUnit} {c : CodePoint} :
    simple? u = some c ↔ ∃ m ∈ marks, unit m.1 = u ∧ m.2.toNat = c := by
  constructor
  · intro h
    unfold simple? at h
    split at h
    · next hu => exact ⟨('t', '\t'), by decide, hu.symm, Option.some.inj h⟩
    · split at h
      · next hu => exact ⟨('n', '\n'), by decide, hu.symm, Option.some.inj h⟩
      · split at h
        · next hu => exact ⟨('r', '\r'), by decide, hu.symm, Option.some.inj h⟩
        · split at h
          · next hu =>
            cases h
            simp only [Bool.or_eq_true, decide_eq_true_eq] at hu
            rcases hu with ((((rfl | rfl) | rfl) | rfl) | rfl) | rfl <;> decide
          · cases h
  · rintro ⟨m, hm, rfl, rfl⟩
    have hall : ∀ m ∈ marks, simple? (unit m.1) = some m.2.toNat := by decide
    exact hall m hm

theorem digitCount?_eq_some {u : CodeUnit} {n : Nat} :
    digitCount? u = some n ↔ ∃ l ∈ letters, unit l.1 = u ∧ l.2 = n := by
  constructor
  · intro h
    unfold digitCount? at h
    split at h
    · next hu => exact ⟨('x', 2), by decide, hu.symm, Option.some.inj h⟩
    · split at h
      · next hu => exact ⟨('u', 4), by decide, hu.symm, Option.some.inj h⟩
      · split at h
        · next hu => exact ⟨('U', 8), by decide, hu.symm, Option.some.inj h⟩
        · cases h
  · rintro ⟨l, hl, rfl, rfl⟩
    have hall : ∀ l ∈ letters, digitCount? (unit l.1) = some l.2 := by decide
    exact hall l hl

inductive DigitOf : Nat → CodeUnit → Prop where
  | lower {v : Nat} (h : v < 16) : DigitOf v (Text.digit v)
  | upper {v : Nat} (h : 10 ≤ v) (hlt : v < 16) : DigitOf v (unit 'A' + UInt16.ofNat (v - 10))

/-- The three rows of digits. -/
theorem digitValue?_cases {u : CodeUnit} {v : Nat} (h : digitValue? u = some v) :
    (v < 10 ∧ u.toNat = 48 + v) ∨ (10 ≤ v ∧ v < 16 ∧ (u.toNat = 87 + v ∨ u.toNat = 55 + v)) := by
  unfold digitValue? at h
  simp only [Bool.and_eq_true, decide_eq_true_eq, UInt16.le_iff_toNat_le,
    show (unit '0').toNat = 48 from rfl, show (unit '9').toNat = 57 from rfl,
    show (unit 'a').toNat = 97 from rfl, show (unit 'f').toNat = 102 from rfl,
    show (unit 'A').toNat = 65 from rfl, show (unit 'F').toNat = 70 from rfl] at h
  split at h
  · cases h
    omega
  · split at h
    · cases h
      omega
    · split at h <;> cases h
      omega

theorem digitValue?_eq_some {u : CodeUnit} {v : Nat} : digitValue? u = some v ↔ DigitOf v u := by
  constructor
  · intro h
    rcases digitValue?_cases h with ⟨hv, hu⟩ | ⟨hv, hlt, hu | hu⟩
    · have hdigit : Text.digit v = u := by
        rw [Text.digit, if_pos hv, ← hu, UInt16.ofNat_toNat]
      exact hdigit ▸ .lower (by omega)
    · have hdigit : Text.digit v = u := by
        rw [Text.digit, if_neg (by omega), ← hu, UInt16.ofNat_toNat]
      exact hdigit ▸ .lower hlt
    · have hdigit : unit 'A' + UInt16.ofNat (v - 10) = u := by
        have hsum : u.toNat = 65 + (v - 10) := by omega
        rw [← UInt16.ofNat_toNat (x := u), hsum, UInt16.ofNat_add]
        rfl
      exact hdigit ▸ .upper hv hlt
  · intro h
    have hlower : ∀ v < 16, digitValue? (Text.digit v) = some v := by decide
    have hupper : ∀ v < 16, 10 ≤ v → digitValue? (unit 'A' + UInt16.ofNat (v - 10)) = some v := by
      decide
    cases h with
    | lower h => exact hlower v h
    | upper h hlt => exact hupper v hlt h

theorem isDigit_iff {u : CodeUnit} : isDigit u = true ↔ ∃ v, DigitOf v u := by
  simp only [isDigit, Option.isSome_iff_exists, digitValue?_eq_some]

theorem exists_digits {digits : Text} (h : ∀ d ∈ digits, isDigit d = true) :
    ∃ values, List.Forall₂ DigitOf values digits := by
  induction digits with
  | nil => exact ⟨[], .nil⟩
  | cons d digits ih =>
    obtain ⟨hd, hrest⟩ := List.forall_mem_cons.mp h
    obtain ⟨v, hv⟩ := isDigit_iff.mp hd
    obtain ⟨values, hvalues⟩ := ih hrest
    exact ⟨v :: values, .cons hv hvalues⟩

theorem isDigit_of_mem {values : List Nat} {digits : Text}
    (h : List.Forall₂ DigitOf values digits) : ∀ d ∈ digits, isDigit d = true := by
  induction h with
  | nil => nofun
  | cons hd _ ih => exact List.forall_mem_cons.mpr ⟨isDigit_iff.mpr ⟨_, hd⟩, ih⟩

/-- The number that a row of digits writes, the first digit weighing most. -/
def number (values : List Nat) : Nat := Nat.ofDigits 16 values.reverse

theorem valueOf_eq {values : List Nat} {digits : Text} (h : List.Forall₂ DigitOf values digits) :
    valueOf digits = number values := by
  have hfold : ∀ n, digits.foldl (fun n u => 16 * n + (digitValue? u).getD 0) n =
      16 ^ values.length * n + number values := by
    induction h with
    | nil => simp [number]
    | @cons v d values digits hd _ ih =>
      intro n
      rw [List.foldl_cons, ih, digitValue?_eq_some.mpr hd]
      simp only [number, List.reverse_cons, Nat.ofDigits_append, List.length_reverse,
        Nat.ofDigits_singleton, List.length_cons, Option.getD_some]
      ring
  rw [valueOf, hfold 0, Nat.mul_zero, Nat.zero_add]

inductive Writes : CodePoint → Text → Prop where
  | simple {m : Char × Char} (hm : m ∈ marks) : Writes m.2.toNat [sign, unit m.1]
  | numeric {l : Char × Nat} {values : List Nat} {digits : Text} (hl : l ∈ letters)
      (hdigits : List.Forall₂ DigitOf values digits) (hlength : digits.length = l.2)
      (hmax : number values ≤ CodePoint.max) :
      Writes (number values) (sign :: unit l.1 :: digits)

/-- No letter that takes digits writes a code point by itself. -/
theorem simple?_of_mem_letters {l : Char × Nat} (hl : l ∈ letters) :
    simple? (unit l.1) = none := by
  have hall : ∀ l ∈ letters, simple? (unit l.1) = none := by decide
  exact hall l hl

/-- A sequence is read as its code point, with its own width. -/
theorem decode_of_writes {c : CodePoint} {tail : Text} (h : Writes c (sign :: tail)) (rest : Text) :
    decode (tail ++ rest) = .valid c (tail.length + 1) := by
  cases h with
  | simple hm =>
    have hsimple := simple?_eq_some.mpr ⟨_, hm, rfl, rfl⟩
    simp [decode, hsimple]
  | @numeric l values digits hl hdigits hlength hmax =>
    have hcount := digitCount?_eq_some.mpr ⟨l, hl, rfl, rfl⟩
    have htake : (digits ++ rest).take l.2 = digits := by rw [← hlength, List.take_left]
    have hall : digits.all isDigit = true := List.all_eq_true.mpr (isDigit_of_mem hdigits)
    simp only [decode, List.cons_append, simple?_of_mem_letters hl, hcount, htake, hlength, hall,
      valueOf_eq hdigits, if_pos hmax, decide_true, Bool.and_self, if_true, List.length_cons]
    congr 1
    omega

/-- What can be read is a sequence of the code point. -/
theorem exists_writes_of_decode {c : CodePoint} {rest : Text} {width : Nat}
    (h : decode rest = .valid c width) :
    ∃ tail more, rest = tail ++ more ∧ Writes c (sign :: tail) ∧ width = tail.length + 1 := by
  unfold decode at h
  split at h
  · cases h
  · next u r =>
    split at h
    · next c' hsimple =>
      cases h
      obtain ⟨m, hm, rfl, rfl⟩ := simple?_eq_some.mp hsimple
      exact ⟨[unit m.1], r, rfl, .simple hm, rfl⟩
    · cases h
    · next n _ hcount =>
      obtain ⟨l, hl, rfl, rfl⟩ := digitCount?_eq_some.mp hcount
      simp only at h
      split at h
      · next hdigits =>
        rw [Bool.and_eq_true, decide_eq_true_eq, List.all_eq_true] at hdigits
        obtain ⟨values, hvalues⟩ := exists_digits hdigits.2
        rw [valueOf_eq hvalues] at h
        split at h
        · next hmax =>
          cases h
          refine ⟨unit l.1 :: r.take l.2, r.drop l.2, by simp,
            .numeric hl hvalues hdigits.1 hmax, ?_⟩
          rw [List.length_cons, hdigits.1]
          omega
        · cases h
      · cases h

end Escape

namespace Pattern

/-- The ways to write a code point in a pattern that ends with `closing`: the character itself where
it means nothing else, or an escape sequence. Line feeds stand in sets only. -/
inductive Spelling (closing : CodeUnit) : CodePoint → Text → Prop where
  | raw {c : CodePoint} (hc : c ≤ CodePoint.max) (hscalar : ¬ CodePoint.IsSurrogate c)
      (hsign : c ≠ '#'.toNat) (hclosing : c ≠ closing.toNat)
      (hline : c = '\n'.toNat → closing = unit ']') : Spelling closing c (Text.ofCodePoint c)
  | escaped {c : CodePoint} {w : Text} (h : Escape.Writes c w) : Spelling closing c w

/-- A surrogate that is written as it is, without its partner behind it. -/
def LoneSurrogate (c : CodePoint) (w rest : Text) : Prop :=
  ∃ u, c = u.toNat ∧ w = [u] ∧ CodeUnit.isSurrogate u = true ∧
    (CodeUnit.isHighSurrogate u = true → ∀ v ∈ rest.head?, CodeUnit.isLowSurrogate v = false)

inductive Spelled (closing : CodeUnit) : List CodePoint → Text → Prop where
  | nil : Spelled closing [] []
  | cons {c : CodePoint} {w : Text} {cs : List CodePoint} {rest : Text}
      (h : Spelling closing c w ∨ LoneSurrogate c w rest) (hrest : Spelled closing cs rest) :
      Spelled closing (c :: cs) (w ++ rest)

end Pattern

end GrammarKit
