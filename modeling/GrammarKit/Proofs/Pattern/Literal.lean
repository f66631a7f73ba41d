import GrammarKit.Proofs.Pattern.Extent
import GrammarKit.Proofs.Pattern.Ranges

/-!
Literals decode every spelling of their text. Each code point between the quotes may be written in
any of its ways, whatever its neighbours are. Main statement: scanning takes such a text as one
lexeme and reading gives its code points back, and there is nothing else that can be read.
-/
namespace GrammarKit

theorem Matcher.accepts_single (c : CodePoint) (d : Int) :
    (single c).accepts d = true ↔ d = c := by
  rw [single, accepts_ofRanges, Bool.false_xor, decide_eq_true_iff, CodeRange.Covers,
    List.exists_mem_cons_iff]
  simp only [List.not_mem_nil, false_and, exists_false, or_false, CodeRange.Contains]
  omega

namespace Lexeme

variable {quote : CodeUnit} {inner : Text}

theorem quote_of_mem_delimiters {opening : CodeUnit}
    (h : (Kind.string, opening, quote) ∈ delimiters) :
    opening = quote ∧ (quote = unit '"' ∨ quote = unit '\'') := by
  simp only [delimiters, List.mem_cons, Prod.mk.injEq, reduceCtorEq, List.not_mem_nil,
    false_and, or_false, true_and] at h
  rcases h with ⟨rfl, rfl⟩ | ⟨rfl, rfl⟩
  · exact ⟨rfl, Or.inl rfl⟩
  · exact ⟨rfl, Or.inr rfl⟩

theorem front_quote (hquote : quote = unit '"' ∨ quote = unit '\'') (h : Enclosed quote inner) :
    ∃ piece, Piece.front quote inner = .ok piece ∧
      piece.lexeme = some (.string, quote :: inner) ∧ piece.width = (quote :: inner).length := by
  have hfront : Piece.front quote inner =
      Piece.delimited .string quote .unterminatedString (quote :: inner) inner := by
    rcases hquote with rfl | rfl
    · exact Piece.front_eq_ofUnits (by decide) (by decide) inner
    · exact Piece.front_eq_ofUnits (by decide) (by decide) inner
  have hsign : quote ≠ Escape.sign := by rcases hquote with rfl | rfl <;> decide
  have hwidth := h.delimitedWidth_eq hsign 1 []
  rw [List.append_nil] at hwidth
  rw [hfront]
  unfold Piece.delimited
  split
  · next width hsome =>
    obtain rfl : 1 + inner.length = width := Option.some.inj (hwidth.symm.trans hsome)
    have hwhole : (quote :: inner).take (1 + inner.length) = quote :: inner := by
      rw [Nat.add_comm, ← List.length_cons (a := quote), List.take_length]
    exact ⟨_, rfl, congrArg (fun t => some (Kind.string, t)) hwhole, Nat.add_comm 1 inner.length⟩
  · next hnone =>
    rw [hwidth] at hnone
    cases hnone

/-- A source that is one string is one lexeme. -/
theorem scan_quote (hquote : quote = unit '"' ∨ quote = unit '\'') (h : Enclosed quote inner) :
    scan (quote :: inner) =
      .ok [⟨.string, quote :: inner, ⟨0, (quote :: inner).length⟩⟩] := by
  obtain ⟨piece, hfront, hlexeme, hwidth⟩ := front_quote hquote h
  exact scan_of_front hfront hlexeme hwidth

end Lexeme

namespace Pattern

open Lexeme (Enclosed)

variable {p : Pattern} {offset : Nat} {closing : CodeUnit} {c : CodePoint} {w rest : Text}

/-- The closing mark is no partner of a surrogate. -/
theorem loneSurrogate_append (hclosing : CodeUnit.isSurrogate closing = false) :
    LoneSurrogate c w (rest ++ [closing]) ↔ LoneSurrogate c w rest := by
  have hlow : CodeUnit.isLowSurrogate closing = false := by
    by_contra hlow
    rw [Bool.not_eq_false] at hlow
    rw [CodeUnit.isSurrogate_of_low hlow] at hclosing
    cases hclosing
  cases rest with
  | nil => simp [LoneSurrogate, hlow]
  | cons v rest => rfl

/-- What is spelled in front of a text is read as its code point, with its own width. -/
theorem characterAt_of_word (hclosing : CodeUnit.isSurrogate closing = false)
    (h : Spelling closing c w ∨ LoneSurrogate c w rest)
    (hdrop : p.text.drop offset = w ++ rest) :
    0 < w.length ∧
      ∃ escaped, p.characterAt offset = .ok (some (⟨c, escaped, offset⟩, w.length)) := by
  rcases h with hspelling | ⟨u, rfl, rfl, hu, hlone⟩
  · cases hspelling with
    | raw hc hscalar hsign hne hline =>
      have hplain := isPlain_of_mem_ofCodePoint hclosing hc hsign hne hline
      have hcode := Text.codePoint?_ofCodePoint hc hscalar rest
      have hwidth := (Text.codePoint?_width hcode).1
      obtain ⟨u, r, hunits⟩ := List.exists_cons_of_length_pos hwidth
      rw [hunits] at hplain hcode hdrop hwidth ⊢
      refine ⟨hwidth, false, ?_⟩
      rw [List.cons_append] at hdrop hcode
      rw [characterAt_unit hdrop (hplain u List.mem_cons_self).ne_sign, hcode]
      rfl
    | escaped h =>
      obtain ⟨tail, rfl⟩ := h.exists_cons
      exact ⟨Nat.succ_pos _, true, characterAt_of_writes h hdrop⟩
  · refine ⟨Nat.one_pos, false, ?_⟩
    have hsign := (Lexeme.isPlain_of_surrogate hclosing hu).ne_sign
    rw [List.singleton_append] at hdrop
    rw [characterAt_unit hdrop hsign, Text.codePoint?_unit hlone]
    rfl

/-- Whatever is spelled up to the closing mark is read. -/
theorem charactersFrom_of_spelled (hclosing : CodeUnit.isSurrogate closing = false)
    {cs : List CodePoint} {body : Text} (h : Spelled closing cs body)
    (hdrop : p.text.drop offset = body ++ [closing]) :
    ∃ characters, p.charactersFrom (offset + body.length) offset = .ok characters ∧
      characters.map Character.codePoint = cs := by
  induction h generalizing offset with
  | nil => exact ⟨[], charactersFrom_of_le (Nat.le_refl _), rfl⟩
  | @cons c w cs rest h _ ih =>
    rw [List.append_assoc] at hdrop
    have hword : Spelling closing c w ∨ LoneSurrogate c w (rest ++ [closing]) :=
      h.imp_right (loneSurrogate_append hclosing).mpr
    obtain ⟨hwidth, escaped, hread⟩ := characterAt_of_word hclosing hword hdrop
    have hbehind : p.text.drop (offset + w.length) = rest ++ [closing] := by
      rw [← List.drop_drop, hdrop, List.drop_left]
    obtain ⟨characters, hcharacters, hcodes⟩ := ih hbehind
    rw [List.length_append, ← Nat.add_assoc]
    refine ⟨_, charactersFrom_cons (by omega) hread hwidth hcharacters, ?_⟩
    rw [List.map_cons, hcodes]

/-- What was read up to the closing mark is spelled there. -/
theorem Occupies.exists_spelled {source : Text} {cs : List Character}
    (hclosing : CodeUnit.isSurrogate closing = false)
    (h : Occupies source p (p.text.length - 1) offset cs)
    (henclosed : Enclosed closing (p.text.drop offset)) :
    ∃ body, p.text.drop offset = body ++ [closing] ∧
      Spelled closing (cs.map Character.codePoint) body := by
  induction h with
  | nil =>
    obtain ⟨inner, hinner⟩ := henclosed.exists_closing
    have hlength := congrArg List.length hinner
    rw [List.length_drop, List.length_append, List.length_singleton] at hlength
    obtain rfl : inner = [] := List.eq_nil_of_length_eq_zero (by omega)
    exact ⟨[], hinner, .nil⟩
  | @cons c width cs hread hwidth _ h ih =>
    have hle := h.le
    obtain ⟨w, rest, hdrop, rfl, hrest, hword, -⟩ :=
      exists_word hclosing henclosed (by omega) hread
    have hbehind : p.text.drop (c.offset + w.length) = rest := by
      rw [← List.drop_drop, hdrop, List.drop_left]
    rw [hbehind] at ih
    obtain ⟨body, rfl, hbody⟩ := ih hrest
    refine ⟨w ++ body, ?_, .cons (hword.imp_right (loneSurrogate_append hclosing).mp) hbody⟩
    rw [hdrop, List.append_assoc]

section Literals

variable {quote : CodeUnit}

theorem quote_not_surrogate (hquote : quote = unit '"' ∨ quote = unit '\'') :
    CodeUnit.isSurrogate quote = false := by
  rcases hquote with rfl | rfl <;> decide

/-- A text that is spelled between quotes is one lexeme, and its literal gives the code points. -/
theorem literal_of_spelled (hquote : quote = unit '"' ∨ quote = unit '\'') {cs : List CodePoint}
    (hne : cs ≠ []) {body : Text} (h : Spelled quote cs body) (rule : Option Text) :
    ∃ l, Lexeme.scan (quote :: body ++ [quote]) = .ok [l] ∧ l.kind = .string ∧
      l.text = quote :: body ++ [quote] ∧
      (l.pattern rule).literal = .ok (cs.map Matcher.single) := by
  have hplain := quote_not_surrogate hquote
  refine ⟨_, Lexeme.scan_quote hquote (h.enclosed hplain .close), rfl, rfl, ?_⟩
  generalize hp : Lexeme.pattern _ rule = p
  have htext : p.text = quote :: (body ++ [quote]) := by
    rw [← hp]
    rfl
  have hdrop : p.text.drop 1 = body ++ [quote] := by rw [htext, List.drop_one, List.tail_cons]
  have hstop : p.text.length - 1 = 1 + body.length := by
    rw [htext, List.length_cons, List.length_append, List.length_singleton]
    omega
  obtain ⟨characters, hread, rfl⟩ := charactersFrom_of_spelled hplain h hdrop
  have hsome : ¬ characters.isEmpty = true := by
    rw [List.isEmpty_iff]
    rintro rfl
    exact hne rfl
  rw [literal, Pattern.body, hstop, hread]
  simp only [bind, Except.bind, if_neg hsome, List.map_map]
  rfl

/-- A literal that can be read is spelled between its quotes. -/
theorem exists_spelled_of_literal {source : Text} {lexemes : List Lexeme}
    (hscan : Lexeme.scan source = .ok lexemes) {l : Lexeme} (hl : l ∈ lexemes)
    (hkind : l.kind = .string) {rule : Option Text} {ms : List Matcher}
    (h : (l.pattern rule).literal = .ok ms) :
    ∃ quote cs body, (quote = unit '"' ∨ quote = unit '\'') ∧ cs ≠ [] ∧ Spelled quote cs body ∧
      l.text = quote :: body ++ [quote] ∧ ms = cs.map Matcher.single := by
  obtain ⟨cs, hbody, h⟩ := exists_of_bind_eq_ok h
  split at h
  · cases h
  · next hsome =>
    cases h
    obtain ⟨opening, inner, quote, hmarks, htext, henclosed, hcovered⟩ :=
      exists_marks hscan hl (Or.inl hkind) rule
    rw [hkind] at hmarks
    obtain ⟨rfl, hquote⟩ := Lexeme.quote_of_mem_delimiters hmarks
    have hdrop : (l.pattern rule).text.drop 1 = inner ++ [opening] := congrArg (List.drop 1) htext
    obtain ⟨body, hspelled, h⟩ := (hcovered cs hbody).exists_spelled (quote_not_surrogate hquote)
      (hdrop ▸ henclosed)
    obtain rfl : inner = body := List.append_cancel_right (hdrop.symm.trans hspelled)
    refine ⟨opening, _, inner, hquote, ?_, h, htext, ?_⟩
    · rwa [ne_eq, List.map_eq_nil_iff, ← List.isEmpty_iff]
    · rw [List.map_map]
      rfl

/-- Literals decode every spelling of their text: whatever the code points between two quotes are
and in which of its ways each of them is written, scanning finds one string, and its literal accepts
these code points one by one. Every literal of a scanned source is of this form. -/
theorem literal_decodes_spellings (rule : Option Text) :
    (∀ quote cs body, (quote = unit '"' ∨ quote = unit '\'') → cs ≠ [] → Spelled quote cs body →
      ∃ l, Lexeme.scan (quote :: body ++ [quote]) = .ok [l] ∧ l.kind = .string ∧
        l.text = quote :: body ++ [quote] ∧
        (l.pattern rule).literal = .ok (cs.map Matcher.single)) ∧
    (∀ source lexemes, Lexeme.scan source = .ok lexemes → ∀ l ∈ lexemes, l.kind = .string →
      ∀ ms, (l.pattern rule).literal = .ok ms →
        ∃ quote cs body, (quote = unit '"' ∨ quote = unit '\'') ∧ cs ≠ [] ∧
          Spelled quote cs body ∧ l.text = quote :: body ++ [quote] ∧
          ms = cs.map Matcher.single) ∧
    ∀ (c : CodePoint) (d : Int), (Matcher.single c).accepts d = true ↔ d = c :=
  ⟨fun _ _ _ hquote hne h => literal_of_spelled hquote hne h rule,
    fun _ _ hscan _ hl hkind _ h => exists_spelled_of_literal hscan hl hkind h,
    Matcher.accepts_single⟩

/-- Digits of either case with another digit behind them, a character of two units, and a quote that
is escaped in front of the closing one. -/
def mixedSpellings : Text := Text.ofString "#u00aFB😀#\""

theorem spelled_mixedSpellings :
    Spelled (unit '"') [0xAF, 0x42, 0x1F600, 0x22] mixedSpellings := by
  have hdigits : List.Forall₂ Escape.DigitOf [0, 0, 10, 15] (Text.ofString "00aF") :=
    .cons (.lower (by decide)) (.cons (.lower (by decide)) (.cons (.lower (by decide))
      (.cons (.upper (by decide) (by decide)) .nil)))
  have hnumeric : Escape.Writes 0xAF (Text.ofString "#u00aF") :=
    .numeric (l := ('u', 4)) (by decide) hdigits rfl (by decide)
  have hquote : Escape.Writes 0x22 (Text.ofString "#\"") :=
    .simple (m := ('"', '"')) (by decide)
  have hraw : ∀ c ∈ [0x42, 0x1F600], Spelling (unit '"') c (Text.ofCodePoint c) := by
    intro c hc
    simp only [List.mem_cons, List.not_mem_nil, or_false] at hc
    rcases hc with rfl | rfl
    · exact .raw (by decide) (by decide) (by decide) (by decide) (by decide)
    · exact .raw (by decide) (by decide) (by decide) (by decide) (by decide)
  have hsplit : mixedSpellings = Text.ofString "#u00aF" ++ (Text.ofCodePoint 0x42 ++
      (Text.ofCodePoint 0x1F600 ++ (Text.ofString "#\"" ++ []))) := by decide +kernel
  rw [hsplit]
  exact .cons (Or.inl (.escaped hnumeric)) (.cons (Or.inl (hraw _ (by decide)))
    (.cons (Or.inl (hraw _ (by decide))) (.cons (Or.inl (.escaped hquote)) .nil)))

theorem literal_decodes_spellings_mixed :
    ∃ l, Lexeme.scan (unit '"' :: mixedSpellings ++ [unit '"']) = .ok [l] ∧
      (l.pattern none).literal = .ok ([0xAF, 0x42, 0x1F600, 0x22].map Matcher.single) ∧
      ∃ quote cs body, (quote = unit '"' ∨ quote = unit '\'') ∧ cs ≠ [] ∧
        Spelled quote cs body ∧ l.text = quote :: body ++ [quote] := by
  obtain ⟨hforward, hbackward, -⟩ := literal_decodes_spellings none
  obtain ⟨l, hscan, hkind, -, hliteral⟩ :=
    hforward _ _ _ (Or.inl rfl) (by decide) spelled_mixedSpellings
  obtain ⟨quote, cs, body, hquote, hne, hspelled, htext, -⟩ :=
    hbackward _ _ hscan l List.mem_cons_self hkind _ hliteral
  exact ⟨l, hscan, hliteral, quote, cs, body, hquote, hne, hspelled, htext⟩

end Literals

end Pattern

end GrammarKit
