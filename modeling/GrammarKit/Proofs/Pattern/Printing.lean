import GrammarKit.Proofs.Pattern.Charset

/-!
Printing matchers and reading them back. A matcher prints control characters by number, the marks
that mean something in a set by an escape, and everything else as it is, one entry right behind the
other. Main statement: what is printed is read back as the same matcher, in quotes where it is one
code point and in brackets otherwise.
-/
namespace GrammarKit

theorem Text.ofCodePoint_eq_singleton {c : Nat} {u : CodeUnit} :
    Text.ofCodePoint c = [u] ↔ c = u.toNat := by
  constructor
  · intro h
    unfold ofCodePoint at h
    split at h
    · next hshort =>
      rw [← List.singleton_inj.mp h, UInt16.toNat_ofNat_of_lt' hshort]
    · cases h
  · rintro rfl
    exact ofCodePoint_toNat u

namespace CodeRange

/-- A range that can be printed: it is not reversed, and its ends are characters. -/
structure IsPrintable (r : CodeRange) : Prop where
  nonneg : 0 ≤ r.first
  proper : r.first ≤ r.last
  bounded : r.last ≤ (CodePoint.max : Nat)
  first_scalar : ¬ CodePoint.IsSurrogate r.first.toNat
  last_scalar : ¬ CodePoint.IsSurrogate r.last.toNat

instance (r : CodeRange) : Decidable r.IsPrintable :=
  decidable_of_iff (0 ≤ r.first ∧ r.first ≤ r.last ∧ r.last ≤ (CodePoint.max : Nat) ∧
      ¬ CodePoint.IsSurrogate r.first.toNat ∧ ¬ CodePoint.IsSurrogate r.last.toNat)
    ⟨fun h => ⟨h.1, h.2.1, h.2.2.1, h.2.2.2.1, h.2.2.2.2⟩,
      fun h => ⟨h.nonneg, h.proper, h.bounded, h.first_scalar, h.last_scalar⟩⟩

/-- Ranges in normal form are not changed by putting them into it. -/
theorem normalize_normalize {ranges : List CodeRange}
    (h : ∀ r ∈ normalize ranges, r.first ≤ r.last) :
    normalize (normalize ranges) = normalize ranges :=
  (isNormal_normalize _ h).unique ⟨apart_normalize ranges, h⟩ (covers_normalize _)

end CodeRange

namespace Matcher

def setMarks : List Char := ['#', '^', '-', ']']

inductive Printed (c : CodePoint) : Bool → Text → Prop where
  | escaped {w : Text} (h : Escape.Writes c w) : Printed c true w
  | plain (h : ∀ mark ∈ setMarks, c ≠ mark.toNat) : Printed c false (Text.ofCodePoint c)

section CodePoints

variable {c : Nat}

theorem padLeft_digits (h : c < 256) :
    Text.padLeft (unit '0') 2 (Text.digits 16 c) = [Text.digit (c / 16), Text.digit (c % 16)] := by
  by_cases hlong : 16 ≤ c
  · rw [Text.digits, if_pos ⟨by decide, hlong⟩, Text.digits, if_neg (by omega)]
    rfl
  · rw [Text.digits, if_neg (by omega), Nat.div_eq_of_lt (by omega), Nat.mod_eq_of_lt (by omega)]
    rfl

/-- A code point below 256 has a sequence with two digits. -/
theorem writes_number (h : c < 256) :
    Escape.Writes c (Text.ofString "#x" ++ Text.padLeft (unit '0') 2 (Text.digits 16 c)) := by
  have hnumber : Escape.number [c / 16, c % 16] = c := by
    simp only [Escape.number, List.reverse_cons, List.reverse_nil, List.nil_append,
      List.cons_append, Nat.ofDigits_cons, Nat.ofDigits_nil]
    omega
  have hmax : Escape.number [c / 16, c % 16] ≤ CodePoint.max := by
    rw [hnumber]
    exact Nat.le_trans h.le (by decide)
  rw [padLeft_digits h]
  have hwrites := Escape.Writes.numeric (l := ('x', 2)) (by decide)
    (.cons (.lower (by omega)) (.cons (.lower (by omega)) .nil)) rfl hmax
  rw [hnumber] at hwrites
  exact hwrites

theorem mem_setMarks {t : Text} :
    t ∈ [[unit '#'], [unit '^'], [unit '-'], [unit ']']] ↔ ∃ mark ∈ setMarks, t = [unit mark] := by
  simp [setMarks]

/-- A mark has a sequence of its own. -/
theorem writes_mark {mark : Char} (h : mark ∈ setMarks) :
    Escape.Writes mark.toNat [Escape.sign, unit mark] := by
  have hmarks : (setMarks.all fun mark => decide ((mark, mark) ∈ Escape.marks)) = true := by decide
  exact .simple (of_decide_eq_true (List.all_eq_true.mp hmarks mark h))

theorem toNat_mark {mark : Char} (h : mark ∈ setMarks) : (unit mark).toNat = mark.toNat := by
  have hall : (setMarks.all fun mark => (unit mark).toNat == mark.toNat) = true := by decide
  exact eq_of_beq (List.all_eq_true.mp hall mark h)

theorem exists_printed (hc : c ≤ CodePoint.max) :
    ∃ escaped w, renderCodePoint c = .ok w ∧ Printed c escaped w := by
  by_cases hcontrol : ((c : Int) < 0x20 || (c : Int) = 0x7F) = true
  · have hlt : c < 256 := by
      simp only [Bool.or_eq_true, decide_eq_true_eq] at hcontrol
      omega
    have hdigits : Text.ofIntBase 16 c = Text.digits 16 c := if_neg (by omega)
    rw [renderCodePoint, if_pos hcontrol]
    exact ⟨true, _, rfl, .escaped (hdigits ▸ writes_number hlt)⟩
  · have hbounded : ¬ ((CodePoint.max : Nat) : Int) < c := by omega
    rw [renderCodePoint, if_neg hcontrol, if_neg hbounded, Int.toNat_natCast]
    simp only [mem_setMarks]
    split
    · next hmark =>
      obtain ⟨mark, hmem, ht⟩ := hmark
      obtain rfl : c = mark.toNat := by
        rw [Text.ofCodePoint_eq_singleton.mp ht, toNat_mark hmem]
      exact ⟨true, _, rfl, .escaped (ht ▸ writes_mark hmem)⟩
    · next hplain =>
      refine ⟨false, _, rfl, .plain fun mark hmem hc => hplain ⟨mark, hmem, ?_⟩⟩
      rw [Text.ofCodePoint_eq_singleton, toNat_mark hmem, hc]

/-- What is printed means nothing else in a set. -/
theorem Printed.isSpecial {escaped : Bool} {w : Text} (h : Printed c escaped w) (offset : Nat) :
    Pattern.Character.isSpecial ⟨c, escaped, offset⟩ = false := by
  cases h with
  | escaped => rfl
  | plain h =>
    have hsign : (c == '^'.toNat) = false := beq_false_of_ne (h '^' (by decide))
    have hdash : (c == '-'.toNat) = false := beq_false_of_ne (h '-' (by decide))
    rw [Pattern.Character.isSpecial, Pattern.Character.isBare, Pattern.Character.isBare, hsign,
      hdash]
    rfl

end CodePoints

end Matcher

namespace Pattern

variable {p : Pattern} {offset stop : Nat}

/-- A character that stands for itself is read as it is, whatever follows. -/
theorem characterAt_raw {c : Nat} (hc : c ≤ CodePoint.max) (hscalar : ¬ CodePoint.IsSurrogate c)
    (hsign : c ≠ '#'.toNat) {rest : Text}
    (hdrop : p.text.drop offset = Text.ofCodePoint c ++ rest) :
    0 < (Text.ofCodePoint c).length ∧
      p.characterAt offset = .ok (some (⟨c, false, offset⟩, (Text.ofCodePoint c).length)) := by
  have hcode := Text.codePoint?_ofCodePoint hc hscalar rest
  have hwidth := (Text.codePoint?_width hcode).1
  obtain ⟨u, r, hunits⟩ := List.exists_cons_of_length_pos hwidth
  have hu : u ≠ Escape.sign := by
    rintro rfl
    have hmem : Escape.sign ∈ Text.ofCodePoint c := by rw [hunits]; exact List.mem_cons_self
    rcases mem_ofCodePoint hc hmem with heq | hsurrogate
    · exact hsign heq.symm
    · exact absurd hsurrogate (by decide)
  refine ⟨hwidth, ?_⟩
  rw [hunits, List.cons_append] at hdrop hcode
  rw [characterAt_unit hdrop hu, hcode, hunits]
  rfl

/-- From one offset to another the characters `cs` are read, whatever is read behind them. -/
structure Reads (p : Pattern) (offset stop : Nat) (cs : List Character) : Prop where
  le : offset ≤ stop
  read {final : Nat} {more : List Character} : stop ≤ final →
    p.charactersFrom final stop = .ok more → p.charactersFrom final offset = .ok (cs ++ more)

namespace Reads

theorem nil : Reads p offset offset [] := ⟨Nat.le_refl _, fun _ h => h⟩

theorem append {middle : Nat} {cs cs' : List Character} (h : Reads p offset middle cs)
    (h' : Reads p middle stop cs') : Reads p offset stop (cs ++ cs') := by
  refine ⟨Nat.le_trans h.le h'.le, fun hfinal hmore => ?_⟩
  rw [List.append_assoc]
  exact h.read (Nat.le_trans h'.le hfinal) (h'.read hfinal hmore)

theorem single {c : Character} {width : Nat} (hwidth : 0 < width)
    (hread : p.characterAt offset = .ok (some (c, width))) :
    Reads p offset (offset + width) [c] :=
  ⟨Nat.le_add_right _ _, fun hfinal hmore => charactersFrom_cons (by omega) hread hwidth hmore⟩

/-- A printed character is read as it was. -/
theorem printed {c : Nat} (hc : c ≤ CodePoint.max) (hscalar : ¬ CodePoint.IsSurrogate c)
    {escaped : Bool} {w rest : Text} (h : Matcher.Printed c escaped w)
    (hdrop : p.text.drop offset = w ++ rest) :
    Reads p offset (offset + w.length) [⟨c, escaped, offset⟩] := by
  cases h with
  | escaped h =>
    obtain ⟨tail, rfl⟩ := h.exists_cons
    exact single (Nat.succ_pos _) (characterAt_of_writes h hdrop)
  | plain h =>
    obtain ⟨hwidth, hread⟩ := characterAt_raw hc hscalar (h '#' (by decide)) hdrop
    exact single hwidth hread

theorem charactersFrom_eq {cs : List Character} (h : Reads p offset stop cs) :
    p.charactersFrom stop offset = .ok cs := by
  have hread := h.read (Nat.le_refl _) (charactersFrom_of_le (Nat.le_refl _))
  rwa [List.append_nil] at hread

end Reads

section Entries

variable {a b : Nat} {escaped escaped' : Bool} {w w' rest : Text}

/-- Two printed characters with a dash between them are read as a range. -/
theorem exists_range (hle : a ≤ b) (hb : b ≤ CodePoint.max)
    (hfirst : ¬ CodePoint.IsSurrogate a) (hlast : ¬ CodePoint.IsSurrogate b)
    (h : Matcher.Printed a escaped w) (h' : Matcher.Printed b escaped' w')
    (hdrop : p.text.drop offset = (w ++ unit '-' :: w') ++ rest) :
    ∃ e : Entry, e.codes = ⟨a, b⟩ ∧
      Reads p offset (offset + (w ++ unit '-' :: w').length) e.characters := by
  rw [List.append_assoc] at hdrop
  have hdash : p.text.drop (offset + w.length) = Text.ofCodePoint '-'.toNat ++ (w' ++ rest) :=
    (Text.slice_of_drop hdrop).2.1
  have hbehind : p.text.drop (offset + w.length + 1) = w' ++ rest :=
    (Text.slice_of_drop hdash).2.1
  obtain ⟨hwidth, hread⟩ := characterAt_raw (by decide) (by decide) (by decide) hdash
  refine ⟨.range ⟨a, escaped, offset⟩ ⟨'-'.toNat, false, offset + w.length⟩
    ⟨b, escaped', offset + w.length + 1⟩ (h.isSpecial _) rfl (h'.isSpecial _) hle, rfl, ?_⟩
  have hreads := (Reads.printed (Nat.le_trans hle hb) hfirst h hdrop).append
    ((Reads.single hwidth hread).append (Reads.printed hb hlast h' hbehind))
  have hlength : offset + (w ++ unit '-' :: w').length = offset + w.length + 1 + w'.length := by
    rw [List.length_append, List.length_cons]
    omega
  rw [hlength]
  exact hreads

/-- A printed range is read as an entry that holds the same code points. -/
theorem exists_entry {r : CodeRange} (h : r.IsPrintable) :
    ∃ w, Matcher.renderRange r = .ok w ∧
      ∀ {p : Pattern} {offset : Nat} {rest : Text}, p.text.drop offset = w ++ rest →
        ∃ e : Entry, e.codes = r ∧ Reads p offset (offset + w.length) e.characters := by
  obtain ⟨a, b, rfl⟩ : ∃ a b : Nat, r = ⟨a, b⟩ := by
    refine ⟨r.first.toNat, r.last.toNat, ?_⟩
    rw [Int.toNat_of_nonneg h.nonneg, Int.toNat_of_nonneg (Int.le_trans h.nonneg h.proper)]
  have hle : a ≤ b := Int.ofNat_le.mp h.proper
  have hb : b ≤ CodePoint.max := Int.ofNat_le.mp h.bounded
  have ha : a ≤ CodePoint.max := Nat.le_trans hle hb
  obtain ⟨escaped, w, hw, hprinted⟩ := Matcher.exists_printed ha
  by_cases heq : a = b
  · subst heq
    refine ⟨w, by rw [Matcher.renderRange, if_pos rfl, hw], fun {p offset rest} hdrop => ?_⟩
    exact ⟨.one ⟨a, escaped, offset⟩ (hprinted.isSpecial offset), rfl,
      .printed ha h.first_scalar hprinted hdrop⟩
  · obtain ⟨escaped', w', hw', hprinted'⟩ := Matcher.exists_printed hb
    have hne : ¬ (a : Int) = b := fun heq' => heq (Int.ofNat.inj heq')
    refine ⟨w ++ unit '-' :: w', ?_,
      fun hdrop => exists_range hle hb h.first_scalar h.last_scalar hprinted hprinted' hdrop⟩
    rw [Matcher.renderRange, if_neg hne, hw, hw']
    rfl

/-- Printed ranges are read back one by one: none of them takes anything of the next. -/
theorem exists_entries {ranges : List CodeRange} (h : ∀ r ∈ ranges, r.IsPrintable) :
    ∃ words, ranges.mapM Matcher.renderRange = .ok words ∧
      ∀ {p : Pattern} {offset : Nat} {rest : Text}, p.text.drop offset = words.flatten ++ rest →
        ∃ es : List Entry, es.map Entry.codes = ranges ∧
          Reads p offset (offset + words.flatten.length) (es.flatMap Entry.characters) := by
  induction ranges with
  | nil => exact ⟨[], rfl, fun _ => ⟨[], rfl, .nil⟩⟩
  | cons r ranges ih =>
    obtain ⟨hr, hranges⟩ := List.forall_mem_cons.mp h
    obtain ⟨w, hw, hentry⟩ := exists_entry hr
    obtain ⟨words, hwords, hentries⟩ := ih hranges
    refine ⟨w :: words, by rw [List.mapM_cons, hw, hwords]; rfl, fun {p offset rest} hdrop => ?_⟩
    rw [List.flatten_cons, List.append_assoc] at hdrop
    obtain ⟨e, hcodes, hreads⟩ := hentry hdrop
    obtain ⟨es, hes, hreads'⟩ := hentries (Text.slice_of_drop hdrop).2.1
    refine ⟨e :: es, by rw [List.map_cons, hcodes, hes], ?_⟩
    rw [List.flatten_cons, List.length_append, ← Nat.add_assoc]
    exact hreads.append hreads'

end Entries

/-- Printed ranges in brackets are read back, behind a sign if they are negated. -/
theorem charset_of_ranges {ranges : List CodeRange} (h : ∀ r ∈ ranges, r.IsPrintable)
    {negated : Bool} (hsome : negated = true ∨ ranges ≠ []) :
    ∃ words, ranges.mapM Matcher.renderRange = .ok words ∧
      ∀ {p : Pattern}, p.text =
          unit '[' :: (if negated then [unit '^'] else []) ++ words.flatten ++ [unit ']'] →
        p.charset = .ok (Matcher.ofRanges ranges negated) := by
  obtain ⟨words, hwords, hentries⟩ := exists_entries h
  refine ⟨words, hwords, fun {p} htext => ?_⟩
  cases negated with
  | true =>
    have hsign : p.text.drop 1 = Text.ofCodePoint '^'.toNat ++ (words.flatten ++ [unit ']']) := by
      rw [htext, if_pos rfl, List.append_assoc]
      rfl
    have hdrop : p.text.drop 2 = words.flatten ++ [unit ']'] := (Text.slice_of_drop hsign).2.1
    have hstop : p.text.length - 1 = 2 + words.flatten.length := by
      simp [htext]
      omega
    obtain ⟨hwidth, hread⟩ := characterAt_raw (by decide) (by decide) (by decide) hsign
    obtain ⟨es, rfl, hreads⟩ := hentries hdrop
    have hbody : p.body = .ok (⟨'^'.toNat, false, 1⟩ :: es.flatMap Entry.characters) := by
      rw [body, hstop]
      exact ((Reads.single hwidth hread).append hreads).charactersFrom_eq
    exact charset_of_denotes hbody (.negated rfl es)
  | false =>
    have hdrop : p.text.drop 1 = words.flatten ++ [unit ']'] := by
      rw [htext, if_neg Bool.false_ne_true]
      rfl
    have hstop : p.text.length - 1 = 1 + words.flatten.length := by
      simp [htext]
      omega
    obtain ⟨es, rfl, hreads⟩ := hentries hdrop
    have hbody : p.body = .ok (es.flatMap Entry.characters) := by
      rw [body, hstop]
      exact hreads.charactersFrom_eq
    have hne : es ≠ [] := by
      rintro rfl
      simp at hsome
    exact charset_of_denotes hbody (.plain hne)

/-- A printed code point in quotes is read back. -/
theorem literal_of_printed {c : Nat} (hc : c ≤ CodePoint.max) (hscalar : ¬ CodePoint.IsSurrogate c)
    {escaped : Bool} {w : Text} (h : Matcher.Printed c escaped w)
    (htext : p.text = unit '\'' :: w ++ [unit '\'']) : p.literal = .ok [Matcher.single c] := by
  have hdrop : p.text.drop 1 = w ++ [unit '\''] := by
    rw [htext]
    rfl
  have hstop : p.text.length - 1 = 1 + w.length := by
    simp [htext]
    omega
  have hbody : p.body = .ok [⟨c, escaped, 1⟩] := by
    rw [body, hstop]
    exact (Reads.printed hc hscalar h hdrop).charactersFrom_eq
  rw [literal, hbody]
  rfl

end Pattern

namespace Matcher

def IsSingle (m : Matcher) : Prop := m.negated = false ∧ ∃ c, m.ranges.toList = [⟨c, c⟩]

theorem render_of_isSingle {m : Matcher} {c : Int} (hnegated : m.negated = false)
    (hranges : m.ranges.toList = [⟨c, c⟩]) {w : Text} (hw : renderCodePoint c = .ok w) :
    m.render = .ok (unit '\'' :: w ++ [unit '\'']) := by
  unfold render
  rw [hnegated, hranges]
  simp only [if_true, hw]
  rfl

theorem render_of_not_isSingle {m : Matcher} (h : ¬ m.IsSingle) {words : List Text}
    (hwords : m.ranges.toList.mapM renderRange = .ok words) :
    m.render = .ok (unit '[' :: (if m.negated then [unit '^'] else []) ++ words.flatten ++
      [unit ']']) := by
  obtain ⟨ranges, negated⟩ := m
  unfold render
  rw [hwords]
  match negated, hranges : ranges.toList with
  | true, _ => rfl
  | false, [] => rfl
  | false, _ :: _ :: _ => rfl
  | false, [⟨first, last⟩] =>
    have hne : ¬ first = last := by
      rintro rfl
      exact h ⟨rfl, first, hranges⟩
    simp only [if_neg hne]
    rfl

/-- A matcher is the matcher of its own ranges. -/
theorem ofRanges_toList {ranges : List CodeRange} {negated : Bool}
    (h : ∀ r ∈ (ofRanges ranges negated).ranges.toList, r.IsPrintable) :
    ofRanges (ofRanges ranges negated).ranges.toList negated = ofRanges ranges negated :=
  congrArg (fun rs : List CodeRange => (⟨rs.toArray, negated⟩ : Matcher))
    (CodeRange.normalize_normalize fun r hr => (h r hr).proper)

/-- A printed matcher reads back as itself. Where its ranges can be printed, and it is negated or
has a range, it prints as a text; if it is one code point that text is a literal of one character,
and otherwise it is a set, and either is compiled to the matcher that was printed. -/
theorem render_reads_back (ranges : List CodeRange) (negated : Bool)
    (hprintable : ∀ r ∈ (ofRanges ranges negated).ranges.toList, r.IsPrintable)
    (hsome : negated = true ∨ (ofRanges ranges negated).ranges.toList ≠ [])
    (span : Span) (rule : Option Text) :
    ∃ t, (ofRanges ranges negated).render = .ok t ∧
      ((ofRanges ranges negated).IsSingle →
        Pattern.literal ⟨t, span, rule⟩ = .ok [ofRanges ranges negated]) ∧
      (¬ (ofRanges ranges negated).IsSingle →
        Pattern.charset ⟨t, span, rule⟩ = .ok (ofRanges ranges negated)) := by
  have hsame := ofRanges_toList hprintable
  by_cases hsingle : (ofRanges ranges negated).IsSingle
  · obtain ⟨hnegated, c, hranges⟩ := hsingle
    have hr := hprintable ⟨c, c⟩ (by rw [hranges]; exact List.mem_singleton_self _)
    obtain ⟨n, rfl⟩ := Int.eq_ofNat_of_zero_le hr.nonneg
    have hn : n ≤ CodePoint.max := Int.ofNat_le.mp hr.bounded
    obtain ⟨escaped, w, hw, hprinted⟩ := exists_printed hn
    refine ⟨_, render_of_isSingle hnegated hranges hw, fun _ => ?_,
      fun h => absurd ⟨hnegated, _, hranges⟩ h⟩
    rw [Pattern.literal_of_printed hn hr.first_scalar hprinted rfl, ← hsame, hranges]
    obtain rfl : negated = false := hnegated
    rfl
  · obtain ⟨words, hwords, hcharset⟩ := Pattern.charset_of_ranges hprintable hsome
    refine ⟨_, render_of_not_isSingle hsingle hwords, fun h => absurd h hsingle, fun _ => ?_⟩
    rw [hcharset rfl, hsame]

def printedRanges : List CodeRange :=
  [⟨0x5E, 0x5E⟩, ⟨0x2B, 0x2D⟩, ⟨0x1D49C, 0x1D4B5⟩, ⟨1, 1⟩]

theorem render_reads_back_marks :
    ((∀ r ∈ (ofRanges printedRanges true).ranges.toList, r.IsPrintable) ∧
      (ofRanges printedRanges true).render = .ok (Text.ofString "[^#x01+-#-#^𝒜-𝒵]") ∧
      Pattern.charset ⟨Text.ofString "[^#x01+-#-#^𝒜-𝒵]", ⟨0, 18⟩, none⟩ =
        .ok (ofRanges printedRanges true)) ∧
    (single '\''.toNat).render = .ok (Text.ofString "'''") ∧
      Pattern.literal ⟨Text.ofString "'''", ⟨0, 3⟩, none⟩ = .ok [single '\''.toNat] := by
  have hprintable : ∀ r ∈ (ofRanges printedRanges true).ranges.toList, r.IsPrintable := by
    decide +kernel
  have hset : (ofRanges printedRanges true).render =
      .ok (Text.ofString "[^#x01+-#-#^𝒜-𝒵]") := by decide +kernel
  have hliteral : (single '\''.toNat).render = .ok (Text.ofString "'''") := by decide +kernel
  refine ⟨⟨hprintable, hset, ?_⟩, hliteral, ?_⟩
  · obtain ⟨t, ht, -, hcharset⟩ :=
      render_reads_back printedRanges true hprintable (Or.inl rfl) ⟨0, 18⟩ none
    cases hset.symm.trans ht
    exact hcharset fun h => Bool.false_ne_true h.1.symm
  · obtain ⟨t, ht, hread, -⟩ := render_reads_back [⟨'\''.toNat, '\''.toNat⟩] false
      (by decide +kernel) (Or.inr (by decide +kernel)) ⟨0, 3⟩ none
    cases hliteral.symm.trans ht
    exact hread ⟨rfl, _, rfl⟩

end Matcher

end GrammarKit
