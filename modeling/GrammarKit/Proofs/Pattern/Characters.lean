import GrammarKit.Pattern.Basic
import GrammarKit.Proofs.Pattern.Spelling
import GrammarKit.Proofs.Source.Tiling

/-!
The characters of a pattern as they are read between its delimiters. Scanning the source finds where
a pattern ends without looking at what its escape sequences write, and reading it looks beyond its
end. Main statement: whatever can be read ends where scanning ended it, character by character.
-/
namespace GrammarKit

namespace Escape

theorem after_natCast {t : Text} {offset : Nat} {u : CodeUnit} {r : Text}
    (h : t.drop offset = u :: r) : after t offset = r := by
  rw [after, ← Int.natCast_succ, Text.ahead_natCast, ← List.tail_drop, h]
  rfl

theorem extentAt_natCast {t : Text} {offset : Nat} {u : CodeUnit} {r : Text}
    (h : t.drop offset = u :: r) : extentAt t offset = extent r := by
  have hlength := congrArg List.length h
  rw [List.length_drop, List.length_cons] at hlength
  unfold extentAt
  split
  · rw [after_natCast h]
  · obtain rfl : r = [] := List.eq_nil_of_length_eq_zero (by omega)
    simp only [extent]
    omega

/-- A sequence in a source has the extent that scanning gives it. -/
theorem Covers.extentAt_eq {e rest : Text} (h : Covers e rest) {t : Text} {offset : Nat}
    (hdrop : t.drop offset = e ++ rest) : extentAt t offset = e.length := by
  obtain ⟨tail, rfl, hextent⟩ := h.extent_eq
  rw [List.cons_append] at hdrop
  rw [extentAt_natCast hdrop, hextent]

/-- A sequence that writes a code point is passed over whole, whatever follows. -/
theorem Writes.covers {c : CodePoint} {w : Text} (h : Writes c w) (rest : Text) :
    Covers w rest := by
  cases h with
  | @simple m hm =>
    have hall : ∀ m ∈ marks, digitCount? (unit m.1) = none := by decide
    exact .simple (hall m hm)
  | @numeric l values digits hl hdigits hlength hmax =>
    exact .numeric (digitCount?_eq_some.mpr ⟨l, hl, rfl, rfl⟩) (isDigit_of_mem hdigits) hlength.le
      (Or.inl hlength)

/-- A sequence that is cut out of its text is passed over whole too. -/
theorem Covers.alone {e rest : Text} (h : Covers e rest) : Covers e [] := by
  cases h with
  | lone => exact .lone
  | simple hu => exact .simple hu
  | numeric hu hdigits hle _ => exact .numeric hu hdigits hle (Or.inr nofun)

/-- Only one sequence is passed over in front of a text. -/
theorem Covers.unique {e e' rest rest' : Text} (h : Covers e rest) (h' : Covers e' rest')
    (heq : e ++ rest = e' ++ rest') : e = e' ∧ rest = rest' := by
  obtain ⟨tail, rfl, hextent⟩ := h.extent_eq
  obtain ⟨tail', rfl, hextent'⟩ := h'.extent_eq
  have htails : tail ++ rest = tail' ++ rest' := (List.cons.inj heq).2
  rw [htails, hextent'] at hextent
  exact List.append_inj heq hextent.symm

theorem Writes.exists_cons {c : CodePoint} {w : Text} (h : Writes c w) :
    ∃ tail, w = sign :: tail := by
  cases h with
  | simple => exact ⟨_, rfl⟩
  | numeric => exact ⟨_, rfl⟩

end Escape

namespace Lexeme

/-- A unit that stands for itself between delimiters. -/
structure IsPlain (closing u : CodeUnit) : Prop where
  ne_sign : u ≠ Escape.sign
  ne_closing : u ≠ closing
  line : u = unit '\n' → closing = unit ']'

theorem Enclosed.append_plain {closing : CodeUnit} {w r : Text} (hw : ∀ u ∈ w, IsPlain closing u)
    (h : Enclosed closing r) : Enclosed closing (w ++ r) := by
  induction w with
  | nil => exact h
  | cons u w ih =>
    obtain ⟨hu, hrest⟩ := List.forall_mem_cons.mp hw
    exact .unit hu.ne_sign hu.ne_closing hu.line (ih hrest)

/-- Behind a unit that stands for itself the pattern goes on. -/
theorem Enclosed.of_plain {closing u : CodeUnit} {r : Text} (h : Enclosed closing (u :: r))
    (hu : IsPlain closing u) : Enclosed closing r := by
  generalize hw : u :: r = w at h
  cases h with
  | close =>
    cases hw
    exact absurd rfl hu.ne_closing
  | unit _ _ _ h =>
    cases hw
    exact h
  | escape he h =>
    obtain ⟨tail, rfl, -⟩ := he.extent_eq
    cases hw
    exact absurd rfl hu.ne_sign

theorem isPlain_of_surrogate {closing u : CodeUnit}
    (hclosing : CodeUnit.isSurrogate closing = false)
    (hu : CodeUnit.isSurrogate u = true) : IsPlain closing u where
  ne_sign := by
    rintro rfl
    exact absurd hu (by decide)
  ne_closing := by
    rintro rfl
    rw [hclosing] at hu
    cases hu
  line := by
    rintro rfl
    exact absurd hu (by decide)

end Lexeme

namespace Pattern

open Lexeme (Enclosed IsPlain)

variable {p : Pattern} {offset : Nat} {closing : CodeUnit}

section Words

/-- The units of a character are the character itself or halves of a pair. -/
theorem mem_ofCodePoint {c : Nat} (hc : c ≤ CodePoint.max) {u : CodeUnit}
    (hu : u ∈ Text.ofCodePoint c) : u.toNat = c ∨ CodeUnit.isSurrogate u = true := by
  by_cases hlong : 0x10000 ≤ c
  · obtain ⟨high, low, hhigh, hlow, hvalue⟩ := Text.exists_pair hlong hc
    rw [hvalue, Text.ofCodePoint_pairValue hhigh hlow] at hu
    rw [CodeUnit.isHighSurrogate_iff] at hhigh
    rw [CodeUnit.isLowSurrogate_iff] at hlow
    rw [CodeUnit.isSurrogate_iff, CodePoint.IsSurrogate]
    simp only [List.mem_cons, List.not_mem_nil, or_false] at hu
    rcases hu with rfl | rfl
    · omega
    · omega
  · have hshort : c < 0x10000 := by omega
    rw [Text.ofCodePoint, if_pos hshort, List.mem_singleton] at hu
    exact Or.inl (hu ▸ UInt16.toNat_ofNat_of_lt' hshort)

theorem isPlain_of_mem_ofCodePoint (hclosing : CodeUnit.isSurrogate closing = false) {c : Nat}
    (hc : c ≤ CodePoint.max) (hsign : c ≠ '#'.toNat) (hne : c ≠ closing.toNat)
    (hline : c = '\n'.toNat → closing = unit ']') :
    ∀ u ∈ Text.ofCodePoint c, IsPlain closing u := by
  intro u hu
  rcases mem_ofCodePoint hc hu with rfl | hsurrogate
  · refine ⟨?_, ?_, fun hu => hline ?_⟩
    · rintro rfl
      exact hsign rfl
    · rintro rfl
      exact hne rfl
    · rw [hu]
      rfl
  · exact Lexeme.isPlain_of_surrogate hclosing hsurrogate

theorem spelling_unit {u : CodeUnit} (hscalar : ¬ CodeUnit.isSurrogate u = true)
    (hu : IsPlain closing u) : Spelling closing u.toNat [u] := by
  rw [CodeUnit.isSurrogate_iff] at hscalar
  rw [← Text.ofCodePoint_toNat]
  refine .raw ?_ hscalar (fun hc => hu.ne_sign ?_) (fun hc => hu.ne_closing ?_) fun hc => hu.line ?_
  · have := u.toNat_lt
    show u.toNat ≤ 0x10FFFF
    omega
  · exact UInt16.toNat_inj.mp hc
  · exact UInt16.toNat_inj.mp hc
  · exact UInt16.toNat_inj.mp hc

theorem spelling_pair {u v : CodeUnit} (hu : CodeUnit.isHighSurrogate u = true)
    (hv : CodeUnit.isLowSurrogate v = true) :
    Spelling closing (CodeUnit.pairValue u v) [u, v] := by
  obtain ⟨hlong, hmax⟩ := Text.pairValue_bounds hu hv
  rw [← Text.ofCodePoint_pairValue hu hv]
  have hne : ∀ n : Nat, n < 0x10000 → CodeUnit.pairValue u v ≠ n := by
    intro n hn heq
    rw [heq] at hlong
    omega
  refine .raw hmax ?_ (hne _ (by decide)) (hne _ closing.toNat_lt) fun hline => ?_
  · unfold CodePoint.IsSurrogate
    omega
  · exact absurd hline (hne _ (by decide))

/-- What is spelled between delimiters does not end the pattern. -/
theorem Spelling.enclosed (hclosing : CodeUnit.isSurrogate closing = false) {c : CodePoint}
    {w r : Text} (h : Spelling closing c w) (hr : Enclosed closing r) :
    Enclosed closing (w ++ r) := by
  cases h with
  | raw hc hscalar hsign hne hline =>
    exact hr.append_plain (isPlain_of_mem_ofCodePoint hclosing hc hsign hne hline)
  | escaped h => exact .escape (h.covers r) hr

theorem Spelled.enclosed (hclosing : CodeUnit.isSurrogate closing = false) {cs : List CodePoint}
    {body r : Text} (h : Spelled closing cs body) (hr : Enclosed closing r) :
    Enclosed closing (body ++ r) := by
  induction h with
  | nil => exact hr
  | cons h _ ih =>
    rw [List.append_assoc]
    rcases h with hspelling | ⟨u, rfl, rfl, hu, -⟩
    · exact hspelling.enclosed hclosing ih
    · refine ih.append_plain fun v hv => ?_
      rw [List.mem_singleton.mp hv]
      exact Lexeme.isPlain_of_surrogate hclosing hu

end Words

section Reading

theorem getElem?_of_drop {t r : Text} {u : CodeUnit} (h : t.drop offset = u :: r) :
    t[offset]? = some u := by
  rw [← List.head?_drop, h]
  rfl

theorem characterAt_sign {r : Text} (h : p.text.drop offset = Escape.sign :: r) :
    p.characterAt offset = match Escape.decode r with
      | .valid c width => .ok (some (⟨c, true, offset⟩, width))
      | .invalid width => .error {
          problem := .invalidEscape (p.text.slice offset (offset + width))
          rule := p.rule
          span := some ⟨p.span.start + offset, p.span.start + offset + width⟩ } := by
  rw [characterAt, if_pos (getElem?_of_drop h), Escape.readAt, Escape.after_natCast h]
  cases Escape.decode r <;> rfl

theorem characterAt_unit {u : CodeUnit} {r : Text} (h : p.text.drop offset = u :: r)
    (hu : u ≠ Escape.sign) : p.characterAt offset =
      .ok ((Text.codePoint? (u :: r)).map fun (c, width) => (⟨c, false, offset⟩, width)) := by
  rw [characterAt, getElem?_of_drop h, if_neg (by simpa using hu), Text.codePointFrom,
    Text.ahead_natCast, h]

theorem characterAt_of_writes {c : CodePoint} {w rest : Text} (h : Escape.Writes c w)
    (hdrop : p.text.drop offset = w ++ rest) :
    p.characterAt offset = .ok (some (⟨c, true, offset⟩, w.length)) := by
  obtain ⟨tail, rfl⟩ := h.exists_cons
  rw [List.cons_append] at hdrop
  rw [characterAt_sign hdrop, Escape.decode_of_writes h rest]
  rfl

/-- What cannot be read as a character is an escape sequence. -/
theorem kind_of_characterAt {e : GrammarError} (h : p.characterAt offset = .error e) :
    e.kind = .invalidEscape := by
  rw [characterAt] at h
  split at h
  · unfold Escape.readAt at h
    cases hdecode : Escape.decode (Escape.after p.text offset) with
    | valid c width =>
      rw [hdecode] at h
      cases h
    | invalid width =>
      rw [hdecode] at h
      cases h
      rfl
  · cases h

/-- Before the end of the text there is a character, and it takes something. -/
theorem characterAt_eq_ok (hlt : offset < p.text.length) {found : Option (Character × Nat)}
    (h : p.characterAt offset = .ok found) :
    ∃ c width, found = some (c, width) ∧ c.offset = offset ∧ 0 < width := by
  obtain ⟨u, r, hdrop⟩ : ∃ u r, p.text.drop offset = u :: r :=
    ⟨_, _, List.drop_eq_getElem_cons hlt⟩
  by_cases hu : u = Escape.sign
  · subst hu
    rw [characterAt_sign hdrop] at h
    split at h
    · next c width hdecode =>
      cases h
      obtain ⟨tail, more, -, -, rfl⟩ := Escape.exists_writes_of_decode hdecode
      exact ⟨_, _, rfl, rfl, Nat.succ_pos _⟩
    · cases h
  · rw [characterAt_unit hdrop hu] at h
    cases hcode : Text.codePoint? (u :: r) with
    | none => cases Text.codePoint?_eq_none.mp hcode
    | some found =>
      rw [hcode] at h
      cases h
      exact ⟨_, _, rfl, rfl, (Text.codePoint?_width hcode).1⟩

variable {stop : Nat} {cs : List Character}

theorem charactersFrom_of_le (h : stop ≤ offset) : p.charactersFrom stop offset = .ok [] := by
  rw [charactersFrom, if_neg (Nat.not_lt.mpr h)]

theorem charactersFrom_cons (hlt : offset < stop) {c : Character} {width : Nat}
    (hread : p.characterAt offset = .ok (some (c, width))) (hwidth : 0 < width)
    (hrest : p.charactersFrom stop (offset + width) = .ok cs) :
    p.charactersFrom stop offset = .ok (c :: cs) := by
  rw [charactersFrom, if_pos hlt, hread]
  simp only [bind, Except.bind, hrest, if_pos hwidth]

/-- Reading starts with the character at the offset and goes on behind it. -/
theorem exists_of_charactersFrom (hlt : offset < stop) (hstop : stop ≤ p.text.length)
    (h : p.charactersFrom stop offset = .ok cs) :
    ∃ c width rest, p.characterAt offset = .ok (some (c, width)) ∧ c.offset = offset ∧
      0 < width ∧ p.charactersFrom stop (offset + width) = .ok rest ∧ cs = c :: rest := by
  rw [charactersFrom, if_pos hlt] at h
  obtain ⟨found, hfound, h⟩ := exists_of_bind_eq_ok h
  obtain ⟨c, width, rfl, hoffset, hwidth⟩ := characterAt_eq_ok (by omega) hfound
  simp only [if_pos hwidth] at h
  obtain ⟨rest, hrest, h⟩ := exists_of_bind_eq_ok h
  cases h
  exact ⟨c, width, rest, hfound, hoffset, hwidth, hrest, rfl⟩

theorem kind_of_charactersFrom {e : GrammarError} (h : p.charactersFrom stop offset = .error e) :
    e.kind = .invalidEscape := by
  fun_induction charactersFrom p stop offset with
  | case1 offset hlt ih =>
    rcases cases_of_bind_eq_error h with hread | ⟨found, -, h⟩
    · exact kind_of_characterAt hread
    · split at h
      · cases h
      · next c width =>
        split at h
        · next hwidth =>
          rcases cases_of_bind_eq_error h with hrest | ⟨rest, -, h⟩
          · exact ih width hwidth hrest
          · cases h
        · cases h
  | case2 => cases h

/-- Between delimiters the next character is one spelling, and what follows is enclosed too. -/
theorem exists_word (hclosing : CodeUnit.isSurrogate closing = false)
    (h : Enclosed closing (p.text.drop offset)) (hlt : offset + 1 < p.text.length) {c : Character}
    {width : Nat} (hread : p.characterAt offset = .ok (some (c, width))) :
    ∃ w rest, p.text.drop offset = w ++ rest ∧ w.length = width ∧ Enclosed closing rest ∧
      (Spelling closing c.codePoint w ∨ LoneSurrogate c.codePoint w rest) ∧
      (c.escaped = true → Escape.Writes c.codePoint w) := by
  have hlength : (p.text.drop offset).length = p.text.length - offset := List.length_drop
  generalize hdrop : p.text.drop offset = t at h hlength
  cases h with
  | close =>
    rw [List.length_singleton] at hlength
    omega
  | @unit u r hsign hne hline h =>
    rw [characterAt_unit hdrop hsign] at hread
    obtain ⟨⟨c', width'⟩, hcode, hfound⟩ := Option.map_eq_some_iff.mp (Except.ok.inj hread)
    cases hfound
    rcases Text.codePoint?_cons hcode with
      ⟨rfl, rfl, hlone⟩ | ⟨v, rest, rfl, hhigh, hlow, hvalue, rfl⟩
    · refine ⟨[u], r, rfl, rfl, h, ?_, nofun⟩
      by_cases hsurrogate : CodeUnit.isSurrogate u = true
      · exact Or.inr ⟨u, rfl, rfl, hsurrogate, hlone⟩
      · exact Or.inl (spelling_unit hsurrogate ⟨hsign, hne, hline⟩)
    · exact ⟨[u, v], rest, rfl, rfl,
        h.of_plain (Lexeme.isPlain_of_surrogate hclosing (CodeUnit.isSurrogate_of_low hlow)),
        Or.inl (hvalue ▸ spelling_pair hhigh hlow), nofun⟩
  | @escape e r he h =>
    obtain ⟨tail, rfl, -⟩ := he.extent_eq
    rw [characterAt_sign hdrop] at hread
    split at hread
    · next c' width' hdecode =>
      cases hread
      obtain ⟨tail', more, hsplit, hwrites, rfl⟩ := Escape.exists_writes_of_decode hdecode
      obtain ⟨heq, rfl⟩ := he.unique (hwrites.covers more) (congrArg (Escape.sign :: ·) hsplit)
      cases heq
      exact ⟨_, _, rfl, rfl, h, Or.inl (.escaped hwrites), fun _ => hwrites⟩
    · cases hread

end Reading

end Pattern

end GrammarKit
