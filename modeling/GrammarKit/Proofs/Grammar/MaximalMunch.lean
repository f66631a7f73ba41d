import GrammarKit.Proofs.Parse.Derivation
import GrammarKit.Proofs.Rule.Numbering
import GrammarKit.Proofs.Tokenizer.Stream

/-!
Maximal munch. At each position the tokenizer of a compiled grammar takes the longest word that a
rule has there, among the real tokens and the whitespace rule, and of several rules with a word of
that length it takes the one that was defined first. Main statement: the input falls into pieces
that are taken in this way, up to its end or to a position where no rule takes anything, and
tokenizing at once and taking tokens from a stream both say what these pieces are.
-/
namespace GrammarKit

namespace Text

def InsidePair (t : Text) (offset : Nat) : Prop :=
  ∃ i high low, offset = i + 1 ∧ t[i]? = some high ∧ t[i + 1]? = some low ∧
    CodeUnit.isHighSurrogate high = true ∧ CodeUnit.isLowSurrogate low = true

theorem not_insidePair_zero (t : Text) : ¬ t.InsidePair 0 := by
  intro hinside
  obtain ⟨i, high, low, hoffset, -⟩ := hinside
  omega

theorem InsidePair.drop {t : Text} {start n : Nat} (hpos : 0 < n) (h : t.InsidePair (start + n)) :
    InsidePair (t.drop start) n := by
  obtain ⟨i, high, low, hoffset, hget, hnext, hhigh, hlow⟩ := h
  refine ⟨n - 1, high, low, by omega, ?_, ?_, hhigh, hlow⟩
  · rw [List.getElem?_drop, ← hget]
    congr 1
    omega
  · rw [List.getElem?_drop, ← hnext]
    congr 1
    omega

/-- No unit is both halves of a pair. -/
theorem not_isHighSurrogate {u : CodeUnit} (h : CodeUnit.isLowSurrogate u = true) :
    CodeUnit.isHighSurrogate u = false := by
  simp only [CodeUnit.isLowSurrogate, CodeUnit.isHighSurrogate, Bool.and_eq_true, decide_eq_true_eq,
    Bool.and_eq_false_iff, decide_eq_false_iff_not, UInt16.le_iff_toNat_le] at h ⊢
  simp only [UInt16.toNat_ofNat] at h ⊢
  omega

/-- A code point takes both halves of a pair or none. -/
theorem not_insidePair_width {t : Text} {c : CodePoint} {width : Nat}
    (h : t.codePoint? = some (c, width)) : ¬ t.InsidePair width := by
  intro hinside
  obtain ⟨i, high, low, hwidth, hget, hnext, hhigh, hlow⟩ := hinside
  match t, h with
  | [u], h =>
    simp at hnext
  | u :: v :: rest, h =>
    simp only [codePoint?] at h
    split at h
    · next hpair =>
      simp only [Option.some.injEq, Prod.mk.injEq] at h
      obtain rfl : i = 1 := by omega
      -- The second half of this pair would be the first half of the other one.
      cases hget
      rw [Bool.and_eq_true] at hpair
      rw [not_isHighSurrogate hpair.2] at hhigh
      cases hhigh
    · next hpair =>
      simp only [Option.some.injEq, Prod.mk.injEq] at h
      obtain rfl : i = 0 := by omega
      cases hget
      cases hnext
      apply hpair
      rw [hhigh, hlow]
      rfl

/-- Code points that take something do not end inside of a pair. -/
theorem Reads.not_insidePair {t : Text} {w : List CodePoint} {n : Nat} (h : t.Reads w n) :
    0 < n → ¬ t.InsidePair n := by
  induction h with
  | nil => exact fun hpos => absurd hpos (Nat.lt_irrefl 0)
  | @cons t c width n w hc hrest ih =>
    intro _ hinside
    by_cases hn : 0 < n
    · exact ih hn (hinside.drop hn)
    · obtain rfl : n = 0 := by omega
      exact not_insidePair_width hc hinside

/-- A word that takes something does not end inside of a pair. -/
theorem LongestWord.not_insidePair {rs : RuleSet} {t name : Text} {start stop : Nat}
    (h : t.LongestWord rs name start stop) (hlt : start < stop) : ¬ t.InsidePair stop := by
  intro hinside
  obtain ⟨w, hspell, -⟩ := h.1
  obtain ⟨n, rfl, hread⟩ := spells_drop.mp hspell
  have hpos : 0 < n := by omega
  exact hread.not_insidePair hpos (hinside.drop hpos)

end Text

/-- A real token is no fragment. -/
theorem Vocabulary.not_isFragment {rs : RuleSet} {v : Vocabulary} (hv : ofRules rs = .ok v)
    {r : Rule} (hr : r ∈ v.real) : v.isFragment r.name = false := by
  unfold ofRules at hv
  split at hv
  · cases hv
  · cases hv
    rw [← Bool.not_eq_true]
    intro hfragment
    obtain ⟨r', hr', hname⟩ := List.any_eq_true.mp hfragment
    simp only [RuleSet.ofKind, List.mem_filter, decide_eq_true_eq] at hr hr' hname
    obtain rfl : r' = r := List.inj_on_of_nodup_map rs.nodup hr'.1.1 hr.1.1 hname
    simp [hr.2] at hr'

namespace Grammar

variable {g : Grammar} {input : Text}

/-- The rules that compete for the input: the real tokens and the whitespace rule. -/
def TakesPart (g : Grammar) (r : Rule) : Prop :=
  r ∈ g.vocabulary.real ∨ g.rules.whitespace = some r

/-- The rule that takes the input from a position on. Its longest word there takes something, no
rule that takes part has a longer one, and those with a word of the same length were all defined
later. -/
structure Prevails (g : Grammar) (input : Text) (position : Nat) (r : Rule) (stop : Nat) : Prop where
  takesPart : g.TakesPart r
  longest : input.LongestWord g.rules r.name position stop
  lt_stop : position < stop
  greatest : ∀ r' stop', g.TakesPart r' → input.LongestWord g.rules r'.name position stop' →
    stop' ≤ stop
  first : ∀ r', g.TakesPart r' → r' ≠ r → input.LongestWord g.rules r'.name position stop →
    r.index < r'.index

/-- One step of the tokenizer. The piece that the prevailing rule takes becomes a token of that
name, or it is dropped if the rule is the whitespace rule. -/
structure Piece (g : Grammar) (input : Text) (position : Nat) (step : Tokenizer.Step) : Prop where
  next_eq : g.tokenizer.next input position = .ok (some step)
  stop_le : step.position ≤ input.length
  taken : ∃ r, g.Prevails input position r step.position ∧
    (g.rules.whitespace = some r ∧ step.token = none ∨
      r ∈ g.vocabulary.real ∧ step.token =
        some ⟨r.name, input.slice position step.position, ⟨position, step.position⟩⟩)

inductive Pieces (g : Grammar) (input : Text) : Nat → List Tokenizer.Step → Nat → Prop where
  | nil (position : Nat) : Pieces g input position [] position
  | cons {position stop : Nat} {step : Tokenizer.Step} {steps : List Tokenizer.Step}
      (h : g.Piece input position step) (rest : Pieces g input step.position steps stop) :
      Pieces g input position (step :: steps) stop

/-- Where the pieces end: with the input, or at a position where no rule takes anything. The error
names the rules that take part in the order of their definition. -/
inductive Ending (g : Grammar) (input : Text) : Nat → Option LexError → Prop where
  | complete : Ending g input input.length none
  | stuck {position : Nat} {tried : List Rule} (hlt : position < input.length)
      (hnone : ∀ r stop, g.TakesPart r → input.LongestWord g.rules r.name position stop →
        stop ≤ position)
      (htried : ∀ r, r ∈ tried ↔ g.TakesPart r)
      (hsorted : tried.Pairwise fun a b => a.index < b.index) :
      Ending g input position (some ⟨input, position, tried.map Rule.name⟩)

/-- In a compiled grammar the rules that take part are tried in the order of their definition, and
no two of them were defined at the same time. -/
theorem Compiled.candidateRules_increasing (h : g.Compiled)
    (hincreasing : g.rules.rules.Pairwise fun a b => a.index < b.index) :
    (Tokenizer.candidateRules g.rules g.vocabulary).Pairwise fun a b => a.index < b.index := by
  have hindices : (g.rules.rules.map Rule.index).Nodup := by
    rw [List.Nodup, List.pairwise_map]
    exact hincreasing.imp fun hlt => Int.ne_of_lt hlt
  have hmem : ∀ r ∈ Tokenizer.candidateRules g.rules g.vocabulary, r ∈ g.rules.rules :=
    fun r hr => (Tokenizer.lexical_of_mem_candidateRules h.vocabulary hr).1
  have hnodup : (Tokenizer.candidateRules g.rules g.vocabulary).Nodup :=
    List.Nodup.of_map Rule.name (Tokenizer.candidateRules_nodup h.vocabulary)
  have hsorted : (Tokenizer.candidateRules g.rules g.vocabulary).Pairwise
      fun a b => a.index ≤ b.index := RuleSet.pairwise_inOrder _
  refine (hsorted.and hnodup).imp_of_mem fun {a b} ha hb hab => ?_
  have hne : a.index ≠ b.index := by
    intro heq
    exact hab.2 (List.inj_on_of_nodup_map hindices (hmem a ha) (hmem b hb) heq)
  omega

theorem takesPart_iff {r : Rule} :
    g.TakesPart r ↔ r ∈ Tokenizer.candidateRules g.rules g.vocabulary :=
  Tokenizer.mem_candidateRules.symm

section Steps

variable (h : g.Compiled) {position : Nat}

include h

/-- The candidate of a rule finds the longest word of the rule. -/
theorem longestAt_iff {r : Rule} {c : Candidate} (hserves : Tokenizer.Serves g.rules r c)
    {stop : Nat} : c.automaton.longestAt position (input.drop position) = some stop ↔
      input.LongestWord g.rules r.name position stop := by
  rcases Automaton.longestAt_drop h.rules.filled hserves.automaton input position with
    ⟨stop', hword, hrun⟩ | ⟨hnone, hrun⟩
  · rw [hrun, Option.some.injEq]
    constructor
    · rintro rfl
      exact hword
    · exact fun hword' => hword.unique hword'
  · rw [hrun]
    constructor
    · intro heq
      cases heq
    · exact fun hword => absurd hword (hnone stop)

/-- The winner among the candidates stands for the rule that prevails. -/
theorem prevails_of_wins
    (hincreasing : g.rules.rules.Pairwise fun a b => a.index < b.index) {hit : Tokenizer.Hit}
    (hwins : Tokenizer.Wins position (input.drop position) g.tokenizer.candidates hit) :
    ∃ r, Tokenizer.Serves g.rules r hit.candidate ∧ g.Prevails input position r hit.stop := by
  obtain ⟨before, after, hsplit, hbefore, hafter⟩ := hwins.first
  have hcandidates := h.candidates
  rw [hsplit] at hcandidates
  obtain ⟨first, r, rest, hrules, hfirst, hserves, hrest⟩ := exists_split_of_forall₂ hcandidates
  have hsorted := h.candidateRules_increasing hincreasing
  rw [hrules] at hsorted
  have hlater : ∀ r' ∈ rest, r.index < r'.index :=
    (List.pairwise_cons.mp (List.pairwise_append.mp hsorted).2.1).1
  have hearlier : ∀ r' ∈ first, ∀ stop', input.LongestWord g.rules r'.name position stop' →
      stop' < hit.stop := by
    intro r' hr' stop' hword
    obtain ⟨c, hc, hserves'⟩ := exists_right_of_forall₂ hfirst hr'
    exact hbefore c hc stop' ((longestAt_iff h hserves').mpr hword)
  have hcases : ∀ r', g.TakesPart r' → r' ∈ first ∨ r' = r ∨ r' ∈ rest := by
    intro r' hr'
    rw [takesPart_iff, hrules, List.mem_append, List.mem_cons] at hr'
    exact hr'
  refine ⟨r, hserves, ?_, (longestAt_iff h hserves).mp hwins.longest, hwins.lt_stop, ?_, ?_⟩
  · rw [takesPart_iff, hrules]
    exact List.mem_append_right _ List.mem_cons_self
  · intro r' stop' hr' hword
    rcases hcases r' hr' with hr' | rfl | hr'
    · exact Nat.le_of_lt (hearlier r' hr' stop' hword)
    · exact Nat.le_of_eq (hword.unique ((longestAt_iff h hserves).mp hwins.longest))
    · obtain ⟨c, hc, hserves'⟩ := exists_right_of_forall₂ hrest hr'
      exact hafter c hc stop' ((longestAt_iff h hserves').mpr hword)
  · intro r' hr' hne hword
    rcases hcases r' hr' with hr' | rfl | hr'
    · exact absurd (hearlier r' hr' hit.stop hword) (Nat.lt_irrefl _)
    · exact absurd rfl hne
    · exact hlater r' hr'

/-- The whitespace rule is the one whose matches are dropped. -/
theorem token_cases {r : Rule} {hit : Tokenizer.Hit}
    (hserves : Tokenizer.Serves g.rules r hit.candidate) (hr : g.TakesPart r) :
    (g.rules.whitespace = some r ∧ hit.candidate.ignored = true) ∨
      (r ∈ g.vocabulary.real ∧ hit.candidate.ignored = false) := by
  rcases hr with hr | hr
  · refine Or.inr ⟨hr, ?_⟩
    rw [← Bool.not_eq_true, hserves.ignored]
    intro hname
    obtain ⟨w, hw, hname⟩ := Option.map_eq_some_iff.mp hname
    obtain ⟨hmem, hkind⟩ := RuleSet.whitespace_eq_some hw
    obtain ⟨hmem', hkind', -⟩ := (Tokenizer.mem_real h.vocabulary).mp hr
    obtain rfl : w = r := List.inj_on_of_nodup_map g.rules.nodup hmem hmem' hname
    rw [hkind] at hkind'
    cases hkind'
  · refine Or.inl ⟨hr, ?_⟩
    rw [hserves.ignored, hr]
    rfl

theorem piece_of_best (hincreasing : g.rules.rules.Pairwise fun a b => a.index < b.index)
    {hit : Tokenizer.Hit} (hlt : position < input.length)
    (hbest : g.tokenizer.best position (input.drop position) = some hit) :
    g.Piece input position (Tokenizer.stepOf position (input.drop position) hit) := by
  obtain ⟨r, hserves, hprevails⟩ := prevails_of_wins h hincreasing (Tokenizer.wins_of_best hbest)
  constructor
  · rw [Tokenizer.next_eq hlt, hbest]
  · exact (Tokenizer.best_bounds (Nat.le_of_lt hlt) hbest).2
  · refine ⟨r, hprevails, ?_⟩
    rcases token_cases h hserves hprevails.takesPart with ⟨hr, hignored⟩ | ⟨hr, hkept⟩
    · exact Or.inl ⟨hr, Tokenizer.token_of_ignored hignored _ _⟩
    · refine Or.inr ⟨hr, ?_⟩
      rw [Tokenizer.token_of_kept hkept, Tokenizer.tokenOf, hserves.name, Text.slice_natCast]
      rfl

theorem ending_of_stuck (hincreasing : g.rules.rules.Pairwise fun a b => a.index < b.index)
    (hlt : position < input.length)
    (hnone : g.tokenizer.best position (input.drop position) = none) :
    g.Ending input position (some (g.tokenizer.refuse input position)) := by
  have hnames : g.tokenizer.candidates.map Candidate.name =
      (Tokenizer.candidateRules g.rules g.vocabulary).map Rule.name :=
    map_eq_of_forall₂ (fun _ _ hserves => hserves.name) h.candidates
  rw [Tokenizer.refuse, hnames]
  refine .stuck hlt ?_ (fun r => takesPart_iff.symm) (h.candidateRules_increasing hincreasing)
  intro r stop hr hword
  obtain ⟨c, hc, hserves⟩ := exists_right_of_forall₂ h.candidates (takesPart_iff.mp hr)
  exact Tokenizer.stuck_of_best hnone c hc stop ((longestAt_iff h hserves).mpr hword)

/-- A course of the tokenizer goes over pieces and ends as it should. -/
theorem pieces_of_course (hincreasing : g.rules.rules.Pairwise fun a b => a.index < b.index)
    {steps : List Tokenizer.Step} {error : Option LexError}
    (hcourse : Tokenizer.Course g.tokenizer input position steps error) :
    ∃ stop, g.Pieces input position steps stop ∧ g.Ending input stop error ∧
      g.tokenizer.next input stop = error.elim (.ok none) .error := by
  induction hcourse with
  | done => exact ⟨input.length, .nil _, .complete, Tokenizer.next_length⟩
  | @stuck position hlt hnone =>
    refine ⟨position, .nil _, ending_of_stuck h hincreasing hlt hnone, ?_⟩
    rw [Tokenizer.next_eq hlt, hnone]
    rfl
  | step hlt hbest _ ih =>
    obtain ⟨stop, hpieces, hending⟩ := ih
    exact ⟨stop, .cons (piece_of_best h hincreasing hlt hbest) hpieces, hending⟩

end Steps

namespace Pieces

variable {position stop : Nat} {steps : List Tokenizer.Step}

/-- Every token that is emitted is that of a real token rule. -/
theorem exists_real (h : g.Pieces input position steps stop) :
    ∀ token ∈ steps.filterMap Tokenizer.Step.token, ∃ r ∈ g.vocabulary.real,
      token.name = r.name := by
  induction h with
  | nil => simp
  | @cons _ _ step _ hpiece _ ih =>
    intro token htoken
    obtain ⟨step', hstep', hsome⟩ := List.mem_filterMap.mp htoken
    rcases List.mem_cons.mp hstep' with rfl | hstep'
    · obtain ⟨r, -, ⟨-, hnone⟩ | ⟨hr, htaken⟩⟩ := hpiece.taken
      · rw [hnone] at hsome
        cases hsome
      · rw [htaken] at hsome
        cases hsome
        exact ⟨r, hr, rfl⟩
    · exact ih token (List.mem_filterMap.mpr ⟨step', hstep', hsome⟩)

/-- No piece ends inside of a surrogate pair. -/
theorem not_insidePair (h : g.Pieces input position steps stop) :
    ∀ p ∈ steps.map Tokenizer.Step.position, ¬ input.InsidePair p := by
  induction h with
  | nil => simp
  | cons hpiece _ ih =>
    intro p hp
    rw [List.map_cons] at hp
    rcases List.mem_cons.mp hp with rfl | hp
    · obtain ⟨r, hprevails, -⟩ := hpiece.taken
      exact hprevails.longest.not_insidePair hprevails.lt_stop
    · exact ih p hp

end Pieces

/-- The tokenizer of a compiled grammar takes piece after piece of an input by maximal munch, and
its tokens and its error are those of the pieces, at once and one at a time. -/
theorem tokenizes_by_maximal_munch {source whitespaceName : Text}
    (hg : compile source whitespaceName = .ok g) (input : Text) :
    ∃ steps stop error, g.Pieces input 0 steps stop ∧ g.Ending input stop error ∧
      g.tokenizer.next input stop = error.elim (.ok none) .error ∧
      g.tokenizer.tokenize input =
        error.elim (.ok (steps.filterMap Tokenizer.Step.token)) .error ∧
      (∀ token ∈ steps.filterMap Tokenizer.Step.token, token.name ∈ g.tokenizer.alphabet ∧
        g.vocabulary.isFragment token.name = false) ∧
      (∀ p ∈ 0 :: steps.map Tokenizer.Step.position, ¬ input.InsidePair p) ∧
      g.tokenizer.stream input = Tokenizer.handedOut steps error ∧
      ∀ n, (Tokenizer.Stream.start input).call g.tokenizer input n =
        (Tokenizer.handedOut steps error)[n]? := by
  have hcompiled := compiled_of_compile hg
  obtain ⟨hread, halphabet⟩ := readRules_of_compile hg
  have hcourse := Tokenizer.course_of_run g.tokenizer input
  obtain ⟨stop, hpieces, hending, hnext⟩ :=
    pieces_of_course hcompiled (readRules_increasing hread) hcourse
  refine ⟨_, stop, _, hpieces, hending, hnext, ?_, ?_, ?_, Tokenizer.stream_eq _ _,
    Tokenizer.Stream.call_eq hcourse⟩
  · unfold Tokenizer.tokenize Tokenizer.Run.result
    cases (g.tokenizer.run input).error with
    | none => rfl
    | some e => rfl
  · intro token htoken
    obtain ⟨r, hr, hname⟩ := hpieces.exists_real token htoken
    rw [hname, halphabet]
    exact ⟨List.mem_map_of_mem hr, Vocabulary.not_isFragment hcompiled.vocabulary hr⟩
  · intro p hp
    rcases List.mem_cons.mp hp with rfl | hp
    · exact Text.not_insidePair_zero input
    · exact hpieces.not_insidePair p hp

def keywords : Text :=
  Text.ofString "doc ::= 'if' name; name :== [a-z]+; unused :== 'x'; _ :== ' ';"

def keywordAndName : Text := Text.ofString "if  ifs1"

/-- The keyword wins over the name of the same length and loses to a longer name, and no rule takes
the digit. -/
theorem tokenizes_by_maximal_munch_keywords :
    ∃ g, compile keywords (Text.ofString "_") = .ok g ∧
      (g.tokenizer.run keywordAndName).tokens.map Token.name =
        [Text.ofString "'if'", Text.ofString "name"] ∧
      (g.tokenizer.run keywordAndName).error = some ⟨keywordAndName, 7,
        [Text.ofString "'if'", Text.ofString "name", Text.ofString "_"]⟩ ∧
      ∃ steps stop error, g.Pieces keywordAndName 0 steps stop ∧
        g.Ending keywordAndName stop error ∧
        g.tokenizer.tokenize keywordAndName =
          error.elim (.ok (steps.filterMap Tokenizer.Step.token)) .error ∧
        g.tokenizer.stream keywordAndName = Tokenizer.handedOut steps error := by
  have htest : (compile keywords (Text.ofString "_")).toOption.any (fun g =>
      decide ((g.tokenizer.run keywordAndName).tokens.map Token.name =
        [Text.ofString "'if'", Text.ofString "name"]) &&
      decide ((g.tokenizer.run keywordAndName).error = some ⟨keywordAndName, 7,
        [Text.ofString "'if'", Text.ofString "name", Text.ofString "_"]⟩)) = true := by
    decide +kernel
  obtain ⟨g, hg, htest⟩ := exists_compile htest
  rw [Bool.and_eq_true, decide_eq_true_eq, decide_eq_true_eq] at htest
  obtain ⟨steps, stop, error, hpieces, hending, -, htokens, -, -, hstream, -⟩ :=
    tokenizes_by_maximal_munch hg keywordAndName
  exact ⟨g, hg, htest.1, htest.2, steps, stop, error, hpieces, hending, htokens, hstream⟩

end Grammar

end GrammarKit
