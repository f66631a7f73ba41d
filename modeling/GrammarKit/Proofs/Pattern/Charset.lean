import GrammarKit.Proofs.Pattern.Extent
import GrammarKit.Proofs.Pattern.Ranges

/-!
The grammar of sets and what they mean. A set is a row of entries, perhaps behind a sign of
negation; each entry is one character or a range of them. Main statement: a set is compiled if and
only if its characters form such a row, to a matcher of what the entries hold, and otherwise the
error is a syntax error inside of the set.
-/
namespace GrammarKit

namespace Pattern

/-- An entry of a set: one character, or two of them in order with a bare dash between. Where the
signs `^` and `-` stand for themselves they are escaped. -/
inductive Entry where
  | one (c : Character) (hc : c.isSpecial = false)
  | range (first dash last : Character) (hfirst : first.isSpecial = false)
      (hdash : dash.isBare '-' = true) (hlast : last.isSpecial = false)
      (hle : first.codePoint ≤ last.codePoint)

namespace Entry

def characters : Entry → List Character
  | one c _ => [c]
  | range first dash last _ _ _ _ => [first, dash, last]

def codes : Entry → CodeRange
  | one c _ => ⟨c.codePoint, c.codePoint⟩
  | range first _ last _ _ _ _ => ⟨first.codePoint, last.codePoint⟩

/-- An entry begins with a character that means nothing else. -/
theorem exists_characters (e : Entry) :
    ∃ c rest, e.characters = c :: rest ∧ c.isSpecial = false := by
  cases e with
  | one c hc => exact ⟨c, [], rfl, hc⟩
  | range first dash last hfirst => exact ⟨first, [dash, last], rfl, hfirst⟩

theorem isSpecial_head (es : List Entry) :
    ∀ c ∈ (es.flatMap characters).head?, c.isSpecial = false := by
  intro c hc
  cases es with
  | nil => cases hc
  | cons e es =>
    obtain ⟨first, rest, hcharacters, hfirst⟩ := e.exists_characters
    rw [List.flatMap_cons, hcharacters] at hc
    cases hc
    exact hfirst

end Entry

/-- The characters of a set: a bare `^` and any entries, or some entries without it. -/
inductive Denotes : List Character → Bool → List Entry → Prop where
  | negated {sign : Character} (hsign : sign.isBare '^' = true) (es : List Entry) :
      Denotes (sign :: es.flatMap Entry.characters) true es
  | plain {es : List Entry} (hne : es ≠ []) : Denotes (es.flatMap Entry.characters) false es

variable {p : Pattern}

section Entries

variable {c first dash last : Character} {rest : List Character}

theorem isBare_of_isSpecial (hc : c.isSpecial = false) :
    c.isBare '^' = false ∧ c.isBare '-' = false := by
  simpa [Character.isSpecial] using hc

theorem entries_special (hc : c.isSpecial = true) :
    p.entries (c :: rest) = .error (p.unescaped c) := by
  match rest with
  | [] => simp only [entries, if_pos hc]
  | [d] => simp only [entries, if_pos hc]
  | d :: last :: rest => rw [entries, if_pos hc]

/-- A character that no dash joins to another one is an entry. -/
theorem entries_one (hc : c.isSpecial = false)
    (hnext : ∀ dash last more, rest = dash :: last :: more → dash.isBare '-' = false) :
    p.entries (c :: rest) = (do
      let ranges ← p.entries rest
      .ok (⟨c.codePoint, c.codePoint⟩ :: ranges)) := by
  have hplain : ¬ c.isSpecial = true := by rw [hc]; exact Bool.false_ne_true
  match rest, hnext with
  | [], _ => simp only [entries, if_neg hplain]
  | [d], _ =>
    rw [entries, if_neg hplain]
    nofun
  | dash :: last :: more, hnext =>
    rw [entries, if_neg hplain, if_neg]
    rw [hnext dash last more rfl]
    exact Bool.false_ne_true

/-- Two characters in order with a dash between them are an entry. -/
theorem entries_range (hfirst : first.isSpecial = false) (hdash : dash.isBare '-' = true)
    (hlast : last.isSpecial = false) (hle : first.codePoint ≤ last.codePoint) :
    p.entries (first :: dash :: last :: rest) = (do
      let ranges ← p.entries rest
      .ok (⟨first.codePoint, last.codePoint⟩ :: ranges)) := by
  rw [entries, if_neg (by simp [hfirst]), if_pos hdash, if_neg (by simp [hlast]),
    if_neg (Nat.not_lt.mpr hle)]

/-- Entries are read as what they hold. -/
theorem entries_flatMap (es : List Entry) :
    p.entries (es.flatMap Entry.characters) = .ok (es.map Entry.codes) := by
  induction es with
  | nil => rfl
  | cons e es ih =>
    rw [List.flatMap_cons]
    cases e with
    | one c hc =>
      have hnext : ∀ dash last more, es.flatMap Entry.characters = dash :: last :: more →
          dash.isBare '-' = false := by
        intro dash last more hrest
        refine (isBare_of_isSpecial (Entry.isSpecial_head es dash ?_)).2
        rw [hrest]
        rfl
      rw [Entry.characters, List.singleton_append, entries_one hc hnext, ih]
      rfl
    | range first dash last hfirst hdash hlast hle =>
      rw [Entry.characters, List.cons_append, List.cons_append, List.singleton_append,
        entries_range hfirst hdash hlast hle, ih]
      rfl

def FailsAmong (p : Pattern) (cs : List Character) (e : GrammarError) : Prop :=
  e.kind = .syntaxError ∧
    ∃ c ∈ cs, e.span = some ⟨p.span.start + c.offset, p.span.start + c.offset + 1⟩

theorem FailsAmong.mono {cs cs' : List Character} {e : GrammarError} (h : p.FailsAmong cs e)
    (hsub : cs ⊆ cs') : p.FailsAmong cs' e := by
  obtain ⟨hkind, c, hc, hspan⟩ := h
  exact ⟨hkind, c, hsub hc, hspan⟩

/-- Characters are a row of entries, or there is an error at one of them. -/
theorem entries_outcome (p : Pattern) (cs : List Character) :
    (∃ es : List Entry, cs = es.flatMap Entry.characters) ∨
      ∃ e, p.entries cs = .error e ∧ p.FailsAmong cs e := by
  induction cs using entries.induct with
  | case1 => exact Or.inl ⟨[], rfl⟩
  | case2 c dash last rest hc =>
    exact Or.inr ⟨_, entries_special hc, rfl, c, List.mem_cons_self, rfl⟩
  | case3 c dash last rest hc hdash hlast =>
    refine Or.inr ⟨p.unescaped last, ?_, rfl, last, by simp, rfl⟩
    rw [entries, if_neg hc, if_pos hdash, if_pos hlast]
  | case4 c dash last rest hc hdash hlast hlt =>
    refine Or.inr ⟨{ problem := .reversedRange p.text, rule := p.rule, span := some ⟨_, _⟩ }, ?_,
      rfl, c, List.mem_cons_self, rfl⟩
    rw [entries, if_neg hc, if_pos hdash, if_neg hlast, if_pos hlt]
  | case5 c dash last rest hc hdash hlast hle ih =>
    rw [Bool.not_eq_true] at hc hlast
    rw [Nat.not_lt] at hle
    rcases ih with ⟨es, rfl⟩ | ⟨e, he, hfails⟩
    · exact Or.inl ⟨.range c dash last hc hdash hlast hle :: es, rfl⟩
    · refine Or.inr ⟨e, ?_, hfails.mono fun d hd => by simp [hd]⟩
      rw [entries_range hc hdash hlast hle, he]
      rfl
  | case6 c dash last rest hc hdash ih =>
    rw [Bool.not_eq_true] at hc hdash
    rcases ih with ⟨es, hes⟩ | ⟨e, he, hfails⟩
    · exact Or.inl ⟨.one c hc :: es, congrArg (c :: ·) hes⟩
    · refine Or.inr ⟨e, ?_, hfails.mono (List.subset_cons_self c _)⟩
      rw [entries_one hc (by rintro d l more ⟨rfl, rfl⟩; exact hdash), he]
      rfl
  | case7 c rest hshort hc =>
    exact Or.inr ⟨_, entries_special hc, rfl, c, List.mem_cons_self, rfl⟩
  | case8 c rest hshort hc ih =>
    -- A dash may be last here. It joins nothing, and the rest fails at it.
    rw [Bool.not_eq_true] at hc
    rcases ih with ⟨es, hes⟩ | ⟨e, he, hfails⟩
    · exact Or.inl ⟨.one c hc :: es, congrArg (c :: ·) hes⟩
    · refine Or.inr ⟨e, ?_, hfails.mono (List.subset_cons_self c rest)⟩
      rw [entries_one hc fun d l more hrest => (hshort d l more hrest).elim, he]
      rfl

end Entries

section Sets

variable {cs : List Character} {negated : Bool} {es : List Entry}

/-- What is written in the grammar of sets is compiled to the matcher of its entries. -/
theorem charset_of_denotes (hbody : p.body = .ok cs) (h : Denotes cs negated es) :
    p.charset = .ok (Matcher.ofRanges (es.map Entry.codes) negated) := by
  rw [charset, hbody]
  cases h with
  | @negated sign hsign es =>
    simp only [bind, Except.bind, hsign, if_true, entries_flatMap]
  | plain hne =>
    cases es with
    | nil => exact absurd rfl hne
    | cons e es =>
      have hentries := entries_flatMap (p := p) (e :: es)
      obtain ⟨c, rest, hcharacters, hc⟩ := e.exists_characters
      rw [List.flatMap_cons, hcharacters, List.cons_append] at hentries ⊢
      simp only [bind, Except.bind, (isBare_of_isSpecial hc).1, Bool.false_eq_true, if_false,
        hentries]

/-- What is not written in the grammar of sets is a syntax error, of all the set or at one of its
characters. -/
theorem charset_outcome (hbody : p.body = .ok cs) :
    (∃ negated es, Denotes cs negated es) ∨
      ∃ e, p.charset = .error e ∧
        (e.kind = .syntaxError ∧ e.span = some p.span ∨ p.FailsAmong cs e) := by
  cases cs with
  | nil =>
    have hempty : p.charset =
        .error { problem := .emptyCharset p.text, rule := p.rule, span := some p.span } := by
      rw [charset, hbody]
      rfl
    exact Or.inr ⟨_, hempty, Or.inl ⟨rfl, rfl⟩⟩
  | cons c rest =>
    by_cases hsign : c.isBare '^' = true
    · rcases entries_outcome p rest with ⟨es, rfl⟩ | ⟨e, he, hfails⟩
      · exact Or.inl ⟨true, es, .negated hsign es⟩
      · refine Or.inr ⟨e, ?_, Or.inr (hfails.mono (List.subset_cons_self c rest))⟩
        rw [charset, hbody]
        simp only [bind, Except.bind, if_pos hsign, he]
    · rcases entries_outcome p (c :: rest) with ⟨es, hes⟩ | ⟨e, he, hfails⟩
      · rw [hes]
        refine Or.inl ⟨false, es, .plain ?_⟩
        rintro rfl
        cases hes
      · refine Or.inr ⟨e, ?_, Or.inr hfails⟩
        rw [charset, hbody]
        simp only [bind, Except.bind, if_neg hsign, he]

/-- The matcher of a set accepts what is in one of its entries, or in none if it is negated. -/
theorem accepts_codes (es : List Entry) (negated : Bool) (c : Int) :
    (Matcher.ofRanges (es.map Entry.codes) negated).accepts c = true ↔
      ¬ ((∃ e ∈ es, e.codes.Contains c) ↔ negated = true) := by
  have hcovers : CodeRange.Covers (es.map Entry.codes) c ↔ ∃ e ∈ es, e.codes.Contains c := by
    simp only [CodeRange.Covers, List.mem_map, exists_exists_and_eq_and]
  rw [Matcher.accepts_ofRanges, ← hcovers]
  cases negated <;> simp

/-- An error of a scanned set or at one of its characters lies inside of it. -/
theorem inside_of_fails {source : Text} {lexemes : List Lexeme}
    (hscan : Lexeme.scan source = .ok lexemes) {l : Lexeme} (hl : l ∈ lexemes)
    (hkind : l.kind = .charset) {rule : Option Text} (hbody : (l.pattern rule).body = .ok cs)
    {e : GrammarError} (h : e.kind = .syntaxError ∧ e.span = some l.span ∨
      (l.pattern rule).FailsAmong cs e) :
    e.kind = .syntaxError ∧ ∃ span, e.span = some span ∧ l.span.start ≤ span.start ∧
      span.start ≤ span.stop ∧ span.stop ≤ l.span.stop := by
  obtain ⟨start, -, hplace, -, -⟩ :=
    Lexeme.exists_worded_of_scan hscan hl (by rw [hkind]; decide)
  rcases h with ⟨herror, hspan⟩ | ⟨herror, c, hc, hspan⟩
  · refine ⟨herror, l.span, hspan, ?_⟩
    rw [hplace]
    simp only
    omega
  · obtain ⟨-, -, -, -, -, -, hcovered⟩ := exists_marks hscan hl (Or.inr hkind) rule
    have hbounds := (hcovered cs hbody).bounds c hc
    refine ⟨herror, _, hspan, ?_⟩
    show l.span.start ≤ l.span.start + c.offset ∧
      l.span.start + c.offset ≤ l.span.start + c.offset + 1 ∧
      l.span.start + c.offset + 1 ≤ l.span.stop
    rw [hplace]
    simp only
    omega

/-- Sets accept exactly their grammar and mean what they say. A scanned set whose escapes can be
read is compiled if and only if its characters are a row of entries behind an optional sign, and its
matcher then accepts what is in one of the entries, or in none of them behind the sign. All else is
a syntax error inside of the set. -/
theorem charset_means_its_entries {source : Text} {lexemes : List Lexeme}
    (hscan : Lexeme.scan source = .ok lexemes) {l : Lexeme} (hl : l ∈ lexemes)
    (hkind : l.kind = .charset) {rule : Option Text} (hbody : (l.pattern rule).body = .ok cs) :
    ((∃ m, (l.pattern rule).charset = .ok m) ↔ ∃ negated es, Denotes cs negated es) ∧
    (∀ m negated es, (l.pattern rule).charset = .ok m → Denotes cs negated es →
      ∀ c : Int, m.accepts c = true ↔ ¬ ((∃ e ∈ es, e.codes.Contains c) ↔ negated = true)) ∧
    ((¬ ∃ negated es, Denotes cs negated es) →
      ∃ e, (l.pattern rule).charset = .error e ∧ e.kind = .syntaxError ∧
        ∃ span, e.span = some span ∧ l.span.start ≤ span.start ∧ span.start ≤ span.stop ∧
          span.stop ≤ l.span.stop) := by
  refine ⟨⟨fun ⟨m, hm⟩ => ?_, fun ⟨negated, es, h⟩ => ⟨_, charset_of_denotes hbody h⟩⟩,
    fun m negated es hm h c => ?_, fun hnone => ?_⟩
  · rcases charset_outcome hbody with h | ⟨e, he, -⟩
    · exact h
    · cases hm.symm.trans he
  · cases hm.symm.trans (charset_of_denotes hbody h)
    exact accepts_codes es negated c
  · rcases charset_outcome hbody with h | ⟨e, he, hfails⟩
    · exact absurd h hnone
    · exact ⟨e, he, inside_of_fails hscan hl hkind hbody hfails⟩

/-- A set with a sign, a range and an escaped dash, and one with a dash that joins nothing. -/
def writtenSets : Text := Text.ofString "[^a-c#-] [a-]"

def writtenEntries : List Entry :=
  [.range ⟨0x61, false, 2⟩ ⟨0x2D, false, 3⟩ ⟨0x63, false, 4⟩ rfl rfl rfl (by decide),
    .one ⟨0x2D, true, 5⟩ rfl]

theorem charset_means_its_entries_written :
    ∃ joined loose, Lexeme.scan writtenSets = .ok [joined, loose] ∧
      (∃ m, (joined.pattern none).charset = .ok m ∧ ∀ c : Int, m.accepts c = true ↔
        ¬ ((∃ e ∈ writtenEntries, e.codes.Contains c) ↔ true = true)) ∧
      ∃ e, (loose.pattern none).charset = .error e ∧ e.kind = .syntaxError ∧
        ∃ span, e.span = some span ∧ loose.span.start ≤ span.start ∧ span.start ≤ span.stop ∧
          span.stop ≤ loose.span.stop := by
  have hscan : Lexeme.scan writtenSets = .ok [⟨.charset, Text.ofString "[^a-c#-]", ⟨0, 8⟩⟩,
      ⟨.charset, Text.ofString "[a-]", ⟨9, 13⟩⟩] := by decide +kernel
  refine ⟨_, _, hscan, ?_, ?_⟩
  · have hbody : (Lexeme.pattern ⟨.charset, Text.ofString "[^a-c#-]", ⟨0, 8⟩⟩ none).body =
        .ok (⟨0x5E, false, 1⟩ :: writtenEntries.flatMap Entry.characters) := by decide +kernel
    have hdenotes := Denotes.negated (show Character.isBare ⟨0x5E, false, 1⟩ '^' = true from rfl)
      writtenEntries
    obtain ⟨hiff, hmeans, -⟩ := charset_means_its_entries hscan (by simp) rfl hbody
    obtain ⟨m, hm⟩ := hiff.mpr ⟨_, _, hdenotes⟩
    exact ⟨m, hm, hmeans m _ _ hm hdenotes⟩
  · have hbody : (Lexeme.pattern ⟨.charset, Text.ofString "[a-]", ⟨9, 13⟩⟩ none).body =
        .ok [⟨0x61, false, 1⟩, ⟨0x2D, false, 2⟩] := by decide +kernel
    obtain ⟨hiff, -, hfails⟩ := charset_means_its_entries hscan (by simp) rfl hbody
    refine hfails fun h => ?_
    obtain ⟨m, hm⟩ := hiff.mpr h
    rw [charset, hbody] at hm
    cases hm

end Sets

end Pattern

end GrammarKit
