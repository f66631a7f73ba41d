import GrammarKit.Proofs.Pattern.Characters

/-!
Where the characters of a scanned pattern end. Scanning a source passes over escape sequences
without looking at what they write, up to the mark that closes a pattern; reading the pattern checks
them, and looks beyond the closing mark while it does. Main statement: whatever can be read covers
what is between the marks exactly, and each escape ends where scanning ended it.
-/
namespace GrammarKit

namespace Lexeme

def delimiters : List (Kind × CodeUnit × CodeUnit) :=
  [(.string, unit '"', unit '"'), (.string, unit '\'', unit '\''), (.charset, unit '[', unit ']')]

theorem closing_not_surrogate {d : Kind × CodeUnit × CodeUnit} (hd : d ∈ delimiters) :
    CodeUnit.isSurrogate d.2.2 = false := by
  have hall : ∀ d ∈ delimiters, CodeUnit.isSurrogate d.2.2 = false := by decide
  exact hall d hd

def pattern (l : Lexeme) (rule : Option Text) : Pattern := ⟨l.text, l.span, rule⟩

theorem Enclosed.exists_closing {closing : CodeUnit} {w : Text} (h : Enclosed closing w) :
    ∃ inner, w = inner ++ [closing] := by
  induction h with
  | close => exact ⟨[], rfl⟩
  | @unit u _ _ _ _ _ ih =>
    obtain ⟨inner, rfl⟩ := ih
    exact ⟨u :: inner, rfl⟩
  | @escape e _ _ _ ih =>
    obtain ⟨inner, rfl⟩ := ih
    exact ⟨e ++ inner, (List.append_assoc e inner [closing]).symm⟩

variable {kind : Kind} {w rest : Text}

theorem Worded.exists_enclosed (h : Worded kind w rest) (hkind : kind = .string ∨ kind = .charset) :
    ∃ opening closing inner, (kind, opening, closing) ∈ delimiters ∧ w = opening :: inner ∧
      Enclosed closing inner := by
  cases h with
  | string hquote h =>
    rcases hquote with rfl | rfl
    · exact ⟨_, _, _, by decide, rfl, h⟩
    · exact ⟨_, _, _, by decide, rfl, h⟩
  | charset h => exact ⟨_, _, _, by decide, rfl, h⟩
  | symbol | escape | doc => simp at hkind
  | operator h =>
    have hall : ∀ o ∈ operators, ¬ (o.2 = .string ∨ o.2 = .charset) := by decide
    exact absurd hkind (hall _ h)

theorem Worded.covers (h : Worded .escape w rest) : Escape.Covers w rest := by
  generalize hkind : Kind.escape = kind at h
  cases h with
  | escape h => exact h
  | operator h =>
    have hall : ∀ o ∈ operators, Kind.escape ≠ o.2 := by decide
    exact absurd hkind (hall _ h)
  | _ => cases hkind

/-- A lexeme that is no docstring stands in the source at its span, as a word of its kind. -/
theorem exists_worded_of_scan {source : Text} {lexemes : List Lexeme}
    (hscan : scan source = .ok lexemes) {l : Lexeme} (hl : l ∈ lexemes) (hkind : l.kind ≠ .doc) :
    ∃ (start : Nat) (more : Text), l.span = ⟨start, start + l.text.length⟩ ∧
      source.drop start = l.text ++ more ∧ Worded l.kind l.text more := by
  have htiling : Tiling source 0 source.length lexemes :=
    tiling_of_scanFrom List.drop_zero (Nat.zero_le _) hscan
  obtain ⟨hstart, hlt, hstop⟩ := htiling.bounds l hl
  have htext := htiling.text_eq l hl hkind
  have hworded := htiling.worded l hl
  obtain ⟨start, hstart⟩ : ∃ n : Nat, l.span.start = n := ⟨l.span.start.toNat, by omega⟩
  obtain ⟨stop, hstop⟩ : ∃ n : Nat, l.span.stop = n := ⟨l.span.stop.toNat, by omega⟩
  rw [← htext, hstop, Int.toNat_natCast] at hworded
  rw [hstart, hstop, Text.slice_natCast] at htext
  have hlength : l.text.length = stop - start := by
    rw [htext, List.length_take, List.length_drop]
    omega
  refine ⟨start, source.drop stop, ?_, ?_, hworded⟩
  · have hspan : l.span = ⟨l.span.start, l.span.stop⟩ := rfl
    rw [hspan, hstart, hstop]
    congr 1
    omega
  · have hrest : source.drop stop = (source.drop start).drop (stop - start) := by
      rw [List.drop_drop]
      congr 1
      omega
    rw [htext, hrest, List.take_append_drop]

end Lexeme

namespace Pattern

open Lexeme (Enclosed delimiters)

/-- The characters of a pattern stand one behind another from an offset up to `stop`. Each is as
wide as it is read, and an escaped one as wide as the sequence is in the source. -/
inductive Occupies (source : Text) (p : Pattern) (stop : Nat) : Nat → List Character → Prop where
  | nil : Occupies source p stop stop []
  | cons {c : Character} {width : Nat} {cs : List Character}
      (hread : p.characterAt c.offset = .ok (some (c, width))) (hwidth : 0 < width)
      (hextent : c.escaped = true → Escape.extentAt source (p.span.start + c.offset) = width)
      (h : Occupies source p stop (c.offset + width) cs) :
      Occupies source p stop c.offset (c :: cs)

namespace Occupies

variable {source : Text} {p : Pattern} {stop offset : Nat} {cs : List Character}

theorem le (h : Occupies source p stop offset cs) : offset ≤ stop := by
  induction h with
  | nil => exact Nat.le_refl _
  | cons => omega

theorem bounds (h : Occupies source p stop offset cs) :
    ∀ c ∈ cs, offset ≤ c.offset ∧ c.offset < stop := by
  induction h with
  | nil => nofun
  | cons _ _ _ h ih =>
    have hle := h.le
    refine List.forall_mem_cons.mpr ⟨by omega, fun c hc => ?_⟩
    have hbounds := ih c hc
    omega

/-- No escape reaches beyond the last character. -/
theorem extent_le (h : Occupies source p stop offset cs) :
    ∀ c ∈ cs, c.escaped = true →
      c.offset + Escape.extentAt source (p.span.start + c.offset) ≤ stop := by
  induction h with
  | nil => nofun
  | cons _ _ hextent h ih =>
    have hle := h.le
    refine List.forall_mem_cons.mpr ⟨fun hescaped => ?_, ih⟩
    rw [hextent hescaped]
    omega

end Occupies

variable {source more : Text} {p : Pattern} {start offset : Nat} {closing : CodeUnit}
  {cs : List Character}

theorem lt_length_of_enclosed (h : Enclosed closing (p.text.drop offset)) :
    offset < p.text.length := by
  by_contra hle
  exact h.ne_nil (List.drop_eq_nil_of_le (Nat.le_of_not_lt hle))

/-- What a sequence covers in a pattern it covers in the source. -/
theorem extentAt_source (hstart : p.span.start = start)
    (hsource : source.drop start = p.text ++ more) (hle : offset ≤ p.text.length) {w rest : Text}
    (hdrop : p.text.drop offset = w ++ rest) (hcovers : Escape.Covers w (rest ++ more)) :
    Escape.extentAt source (p.span.start + offset) = w.length := by
  rw [hstart, ← Int.natCast_add]
  refine hcovers.extentAt_eq ?_
  rw [← List.drop_drop, hsource, List.drop_append_of_le_length hle, hdrop, List.append_assoc]

/-- Reading between delimiters ends where scanning ended the pattern. -/
theorem occupies_of_charactersFrom (hclosing : CodeUnit.isSurrogate closing = false)
    (hstart : p.span.start = start) (hsource : source.drop start = p.text ++ more)
    (henclosed : Enclosed closing (p.text.drop offset))
    (h : p.charactersFrom (p.text.length - 1) offset = .ok cs) :
    Occupies source p (p.text.length - 1) offset cs := by
  induction cs generalizing offset with
  | nil =>
    have hlt := lt_length_of_enclosed henclosed
    have hstop : offset = p.text.length - 1 := by
      by_contra hne
      obtain ⟨c, width, rest, -, -, -, -, hcons⟩ :=
        exists_of_charactersFrom (by omega) (Nat.sub_le _ _) h
      cases hcons
    rw [hstop]
    exact .nil
  | cons c cs ih =>
    have hbefore : offset < p.text.length - 1 := by
      by_contra hle
      rw [charactersFrom_of_le (by omega)] at h
      cases h
    obtain ⟨c', width, rest, hread, rfl, hwidth, hrest, hcons⟩ :=
      exists_of_charactersFrom hbefore (Nat.sub_le _ _) h
    cases hcons
    obtain ⟨w, behind, hdrop, rfl, hbehind, -, hwrites⟩ :=
      exists_word hclosing henclosed (by omega) hread
    refine .cons hread hwidth (fun hescaped => ?_) (ih ?_ hrest)
    · exact extentAt_source hstart hsource (by omega) hdrop ((hwrites hescaped).covers _)
    · rw [← List.drop_drop, hdrop, List.drop_left]
      exact hbehind

/-- What is passed over as one sequence is read as one character, or not at all. -/
theorem charactersFrom_of_covers (h : Escape.Covers p.text more) :
    (∃ c, Escape.Writes c p.text ∧ p.charactersFrom p.text.length 0 = .ok [⟨c, true, 0⟩]) ∨
      ∃ e, p.charactersFrom p.text.length 0 = .error e ∧ e.kind = .invalidEscape := by
  cases hread : p.charactersFrom p.text.length 0 with
  | error e => exact Or.inr ⟨e, rfl, kind_of_charactersFrom hread⟩
  | ok cs =>
    obtain ⟨tail, htext, -⟩ := h.extent_eq
    have hlength : 0 < p.text.length := by
      rw [htext]
      exact Nat.succ_pos _
    obtain ⟨c, width, rest, hfirst, -, -, hrest, rfl⟩ :=
      exists_of_charactersFrom hlength (Nat.le_refl _) hread
    have hdrop : p.text.drop 0 = Escape.sign :: tail := htext
    rw [characterAt_sign hdrop] at hfirst
    split at hfirst
    · next c' width' hdecode =>
      cases hfirst
      obtain ⟨tail', behind, rfl, hwrites, rfl⟩ := Escape.exists_writes_of_decode hdecode
      have hsplit : p.text ++ [] = (Escape.sign :: tail') ++ behind := by
        rw [List.append_nil, htext]
        rfl
      obtain ⟨hwhole, -⟩ := h.alone.unique (hwrites.covers behind) hsplit
      rw [charactersFrom_of_le (by rw [hwhole, List.length_cons]; omega)] at hrest
      cases hrest
      exact Or.inl ⟨c', hwhole ▸ hwrites, rfl⟩
    · cases hfirst

theorem occupies_of_writes (hstart : p.span.start = start)
    (hsource : source.drop start = p.text ++ more) {c : CodePoint} (h : Escape.Writes c p.text) :
    Occupies source p p.text.length 0 [⟨c, true, 0⟩] := by
  have hdrop : p.text.drop 0 = p.text ++ [] := (List.append_nil _).symm
  obtain ⟨tail, htext⟩ := h.exists_cons
  have hwidth : 0 < p.text.length := by
    rw [htext]
    exact Nat.succ_pos _
  have hextent := extentAt_source hstart hsource (Nat.zero_le _) hdrop (h.covers _)
  refine .cons (c := ⟨c, true, 0⟩) (characterAt_of_writes h hdrop) hwidth (fun _ => hextent) ?_
  rw [Nat.zero_add]
  exact .nil

/-- A scanned string or set stands between its marks, and what can be read of it covers that. -/
theorem exists_marks {lexemes : List Lexeme} (hscan : Lexeme.scan source = .ok lexemes)
    {l : Lexeme} (hl : l ∈ lexemes) (hkind : l.kind = .string ∨ l.kind = .charset)
    (rule : Option Text) :
    ∃ opening inner closing, (l.kind, opening, closing) ∈ delimiters ∧
      l.text = opening :: inner ++ [closing] ∧ Enclosed closing (inner ++ [closing]) ∧
      ∀ cs, (l.pattern rule).body = .ok cs →
        Occupies source (l.pattern rule) (l.text.length - 1) 1 cs := by
  obtain ⟨start, more, hspan, hsource, hworded⟩ :=
    Lexeme.exists_worded_of_scan hscan hl (by rcases hkind with h | h <;> rw [h] <;> decide)
  obtain ⟨opening, closing, w, hmarks, htext, henclosed⟩ := hworded.exists_enclosed hkind
  obtain ⟨inner, rfl⟩ := henclosed.exists_closing
  have hbehind : (l.pattern rule).text.drop 1 = inner ++ [closing] := congrArg (List.drop 1) htext
  refine ⟨opening, inner, closing, hmarks, htext, henclosed, fun cs hbody => ?_⟩
  exact occupies_of_charactersFrom (Lexeme.closing_not_surrogate hmarks) (congrArg Span.start hspan)
    hsource (hbehind ▸ henclosed) hbody

/-- Reading ends where scanning ended: the characters of a string or set that can be read cover what
is between its marks, so that no escape takes the closing mark with it, and the character of a bare
escape covers all of it. Each escaped character is as wide as the sequence in the source. A bare
escape that cannot be read is an invalid one. -/
theorem reading_ends_with_scanning {source : Text} {lexemes : List Lexeme}
    (hscan : Lexeme.scan source = .ok lexemes) {l : Lexeme} (hl : l ∈ lexemes)
    (rule : Option Text) :
    ((l.kind = .string ∨ l.kind = .charset) →
      (∃ opening inner closing, (l.kind, opening, closing) ∈ delimiters ∧
        l.text = opening :: inner ++ [closing]) ∧
      ∀ cs, (l.pattern rule).body = .ok cs →
        Occupies source (l.pattern rule) (l.text.length - 1) 1 cs ∧
        ∀ c ∈ cs, c.escaped = true →
          c.offset + Escape.extentAt source (l.span.start + c.offset) ≤ (l.text.length - 1 : Nat)) ∧
    (l.kind = .escape →
      (∀ cs, (l.pattern rule).charactersFrom l.text.length 0 = .ok cs →
        Occupies source (l.pattern rule) l.text.length 0 cs) ∧
      ((∃ c, (l.pattern rule).escape = .ok (Matcher.single c)) ∨
        ∃ e, (l.pattern rule).escape = .error e ∧ e.kind = .invalidEscape)) := by
  constructor
  · intro hkind
    obtain ⟨opening, inner, closing, hmarks, htext, -, hcovered⟩ := exists_marks hscan hl hkind rule
    refine ⟨⟨opening, inner, closing, hmarks, htext⟩, fun cs hbody => ?_⟩
    exact ⟨hcovered cs hbody, (hcovered cs hbody).extent_le⟩
  · intro hkind
    obtain ⟨start, more, hspan, hsource, hworded⟩ :=
      Lexeme.exists_worded_of_scan hscan hl (by rw [hkind]; decide)
    rw [hkind] at hworded
    have hcovers : Escape.Covers (l.pattern rule).text more := hworded.covers
    rcases charactersFrom_of_covers hcovers with ⟨c, hwrites, hread⟩ | ⟨e, hread, he⟩
    · refine ⟨fun cs hcs => ?_, Or.inl ⟨c, ?_⟩⟩
      · cases hread.symm.trans hcs
        exact occupies_of_writes (congrArg Span.start hspan) hsource hwrites
      · rw [escape, hread]
        rfl
    · refine ⟨fun cs hcs => ?_, Or.inr ⟨e, ?_, he⟩⟩
      · cases hread.symm.trans hcs
      · rw [escape, hread]
        rfl

/-- A string in which an escape stands next to the closing mark, a set in which the closing mark is
escaped, and a bare escape. -/
def markedPatterns : Text := Text.ofString "'a##' [#]#x5d] #x41"

theorem reading_ends_with_scanning_marks :
    ∃ string set bare, Lexeme.scan markedPatterns = .ok [string, set, bare] ∧
      (∃ cs, (string.pattern none).body = .ok cs ∧ cs.length = 2 ∧
        Occupies markedPatterns (string.pattern none) 4 1 cs) ∧
      (∃ cs, (set.pattern none).body = .ok cs ∧ cs.length = 2 ∧
        Occupies markedPatterns (set.pattern none) 7 1 cs) ∧
      ((∃ c, (bare.pattern none).escape = .ok (Matcher.single c)) ∨
        ∃ e, (bare.pattern none).escape = .error e ∧ e.kind = .invalidEscape) := by
  have hscan : Lexeme.scan markedPatterns = .ok [⟨.string, Text.ofString "'a##'", ⟨0, 5⟩⟩,
      ⟨.charset, Text.ofString "[#]#x5d]", ⟨6, 14⟩⟩,
      ⟨.escape, Text.ofString "#x41", ⟨15, 19⟩⟩] := by decide +kernel
  have hstring : (Lexeme.pattern ⟨.string, Text.ofString "'a##'", ⟨0, 5⟩⟩ none).body =
      .ok [⟨97, false, 1⟩, ⟨35, true, 2⟩] := by decide +kernel
  have hset : (Lexeme.pattern ⟨.charset, Text.ofString "[#]#x5d]", ⟨6, 14⟩⟩ none).body =
      .ok [⟨93, true, 1⟩, ⟨93, true, 3⟩] := by decide +kernel
  refine ⟨_, _, _, hscan, ⟨_, hstring, rfl, ?_⟩, ⟨_, hset, rfl, ?_⟩, ?_⟩
  · exact (((reading_ends_with_scanning hscan (by simp) none).1 (Or.inl rfl)).2 _ hstring).1
  · exact (((reading_ends_with_scanning hscan (by simp) none).1 (Or.inr rfl)).2 _ hset).1
  · exact ((reading_ends_with_scanning hscan (by simp) none).2 rfl).2

end Pattern

end GrammarKit
