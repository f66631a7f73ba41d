import GrammarKit.Grammar.Run
import GrammarKit.Proofs.Parse.Lockstep
import GrammarKit.Proofs.Tokenizer.Walk

/-!
Parsing a text and parsing its tokens. Where the tokenizer has no choice at any of its stops, the
offsets after white space and the numbers of tokens before them are cursors that correspond, so that
both parses take the same tokens. Main statement: both end with the same tree or the same error.
-/
namespace GrammarKit

namespace Tokenizer

/-- A tokenizer that has a candidate for each name under the automaton of that name, and for the
whitespace rule one that is dropped. -/
structure Fitted (rs : RuleSet) (tk : Tokenizer) : Prop where
  automaton : ∀ c ∈ tk.candidates, Automaton.ofRule rs c.name = .ok c.automaton
  distinct : ∀ c ∈ tk.candidates, ∀ d ∈ tk.candidates, c.name = d.name → c = d
  ignored_iff : ∀ c ∈ tk.candidates,
    (c.ignored = true ↔ rs.whitespace.map Rule.name = some c.name)
  whitespace : ∀ r, rs.whitespace = some r → ∃ c ∈ tk.candidates, c.name = r.name

variable {tk : Tokenizer} {input : Text}

/-- Whether all that matches at a position goes by the name of the winner. -/
def isClear (tk : Tokenizer) (position : Nat) (rest : Text) : Bool :=
  tk.candidates.all fun c => (c.automaton.longestAt position rest).isNone ||
    (tk.best position rest).any fun hit => decide (hit.candidate.name = c.name)

/-- The test of the names finds all rivals. -/
theorem Fitted.unrivalled_iff {rs : RuleSet} (h : tk.Fitted rs) {position : Nat} {rest : Text} :
    tk.Unrivalled position rest ↔ tk.isClear position rest = true := by
  unfold Unrivalled isClear
  simp only [List.all_eq_true, Bool.or_eq_true, Option.isNone_iff_eq_none, Option.any_eq_true,
    decide_eq_true_eq]
  constructor
  · intro hclear c hc
    by_cases hwins : ∃ hit, tk.best position rest = some hit ∧ hit.candidate.name = c.name
    · exact Or.inr hwins
    · refine Or.inl (hclear c hc fun hit hbest heq => hwins ⟨hit, hbest, ?_⟩)
      rw [heq]
  · intro hclear c hc hloses
    rcases hclear c hc with hnone | ⟨hit, hbest, hname⟩
    · exact hnone
    · obtain ⟨hmem, -, -⟩ := best_eq_some hbest
      exact absurd (h.distinct c hc _ hmem hname.symm) (hloses hit hbest)

/-- Nothing wins where nothing is left. -/
theorem best_nil (position : Nat) : tk.best position [] = none := by
  cases hbest : tk.best position [] with
  | none => rfl
  | some hit =>
    obtain ⟨-, hlt, hmatch⟩ := best_eq_some hbest
    have hbounds := Automaton.longestAt_bounds hmatch
    rw [List.length_nil] at hbounds
    omega

/-- Nothing but the winner matches. -/
theorem Unrivalled.loser_eq_none {position : Nat} {rest : Text} {hit : Hit}
    (h : tk.Unrivalled position rest) (hbest : tk.best position rest = some hit) {c : Candidate}
    (hc : c ∈ tk.candidates) (hne : c ≠ hit.candidate) :
    c.automaton.longestAt position rest = none := by
  refine h c hc fun hit' hbest' => ?_
  rw [hbest] at hbest'
  cases hbest'
  exact hne

/-- Nothing matches where nothing is left. -/
theorem Unrivalled.nil_eq_none {position : Nat} (h : tk.Unrivalled position []) {c : Candidate}
    (hc : c ∈ tk.candidates) : c.automaton.longestAt position [] = none := by
  refine h c hc fun hit hbest => ?_
  rw [best_nil] at hbest
  cases hbest

/-- White space does not match where something else wins. -/
theorem Unrivalled.blank_eq_none {position : Nat} {rest : Text} {hit : Hit}
    (h : tk.Unrivalled position rest) (hbest : tk.best position rest = some hit)
    (hkept : hit.candidate.ignored = false) :
    ∀ c ∈ tk.candidates, c.ignored = true → c.automaton.longestAt position rest = none := by
  intro c hc hignored
  refine h.loser_eq_none hbest hc fun heq => ?_
  rw [← heq, hignored] at hkept
  cases hkept

theorem Aligned.blank_eq_none {tokens : List Token} {offset index : Nat}
    (h : Aligned tk input tokens offset index) :
    ∀ c ∈ tk.candidates, c.ignored = true →
      c.automaton.longestAt offset (input.drop offset) = none := by
  rcases h.cases with ⟨rfl, -, hclear⟩ | ⟨hit, steps, -, hbest, hclear, hkept, -⟩
  · intro c hc _
    rw [List.drop_length]
    exact hclear.nil_eq_none hc
  · exact hclear.blank_eq_none hbest hkept

end Tokenizer

namespace Session

theorem skipFrom_of_none {a : Automaton} {cursor : Nat} {rest : Text}
    (h : a.longestAt cursor rest = none) : skipFrom a cursor rest = cursor := by
  unfold skipFrom
  split
  · rfl
  · rw [h]

theorem skipFrom_of_lt {a : Automaton} {cursor stop : Nat} {rest : Text}
    (h : a.longestAt cursor rest = some stop) (hlt : cursor < stop) :
    skipFrom a cursor rest = skipFrom a stop (rest.drop (stop - cursor)) := by
  have hbounds := Automaton.longestAt_bounds h
  rw [skipFrom.eq_def a cursor rest]
  split
  · rw [List.length_nil] at hbounds
    omega
  · simp only [h, if_pos hlt]

end Session

namespace Tokenizer.Fitted

open Session

variable {p : Parser} {tk : Tokenizer} {input : Text}

/-- White space is skipped with the automaton of the candidate that is dropped. -/
theorem skip_eq (h : tk.Fitted p.rules) {c : Candidate} (hc : c ∈ tk.candidates)
    (hignored : c.ignored = true) (offset : Nat) :
    (p.session (.text input)).skip offset =
      .ok (skipFrom c.automaton offset (input.drop offset)) := by
  obtain ⟨r, hr, hname⟩ := Option.map_eq_some_iff.mp ((h.ignored_iff c hc).mp hignored)
  have hrules : (p.session (.text input)).rules.whitespace = some r := hr
  have hget : (p.session (.text input)).automata.get r.name = .ok c.automaton := by
    rw [Automaton.Table.get_eq, hname]
    exact h.automaton c hc
  have hinput : (p.session (.text input)).input = .text input := rfl
  simp only [skip, hinput, hrules, hget]
  rfl

/-- Nothing is skipped where white space does not match. -/
theorem skip_of_none (h : tk.Fitted p.rules) {offset : Nat}
    (hnone : ∀ c ∈ tk.candidates, c.ignored = true →
      c.automaton.longestAt offset (input.drop offset) = none) :
    (p.session (.text input)).skip offset = .ok offset := by
  cases hr : p.rules.whitespace with
  | none =>
    have hrules : (p.session (.text input)).rules.whitespace = none := hr
    have hinput : (p.session (.text input)).input = .text input := rfl
    simp only [skip, hinput, hrules]
  | some r =>
    obtain ⟨c, hc, hname⟩ := h.whitespace r hr
    have hignored : c.ignored = true := by
      rw [h.ignored_iff c hc, hr, hname]
      rfl
    rw [h.skip_eq hc hignored, skipFrom_of_none (hnone c hc hignored)]

/-- Where white space wins, skipping goes on after it. -/
theorem skip_of_dropped (h : tk.Fitted p.rules) {offset : Nat} {hit : Hit}
    (hbest : tk.best offset (input.drop offset) = some hit)
    (hignored : hit.candidate.ignored = true) :
    (p.session (.text input)).skip offset = (p.session (.text input)).skip hit.stop := by
  obtain ⟨hmem, hlt, hmatch⟩ := best_eq_some hbest
  have hdrop : (input.drop offset).drop (hit.stop - offset) = input.drop hit.stop := by
    rw [List.drop_drop]
    congr 1
    omega
  rw [h.skip_eq hmem hignored, h.skip_eq hmem hignored, skipFrom_of_lt hmatch hlt, hdrop]

/-- From any stop of the tokenizer, skipping leads to the next one that is not followed by white
space. -/
theorem exists_rest (h : tk.Fitted p.rules) {offset : Nat} {steps : List Step}
    (hwalk : Walk tk input offset steps) :
    ∃ offset' steps', (p.session (.text input)).skip offset = .ok offset' ∧
      Walk tk input offset' steps' ∧ Rests steps' ∧
      steps'.filterMap Step.token = steps.filterMap Step.token := by
  induction hwalk with
  | done hclear =>
    refine ⟨input.length, [], h.skip_of_none fun c hc _ => ?_, .done hclear, nofun, rfl⟩
    rw [List.drop_length]
    exact hclear.nil_eq_none hc
  | @step position hit steps hlt hbest hclear rest ih =>
    cases hignored : hit.candidate.ignored with
    | true =>
      obtain ⟨offset', steps', hskip, hwalk, hrests, htokens⟩ := ih
      refine ⟨offset', steps', (h.skip_of_dropped hbest hignored).trans hskip, hwalk, hrests, ?_⟩
      rw [List.filterMap_cons_none (token_of_ignored hignored _ _)]
      exact htokens
    | false =>
      refine ⟨position, _, h.skip_of_none (hclear.blank_eq_none hbest hignored),
        .step hlt hbest hclear rest, ?_, rfl⟩
      intro step hstep
      cases hstep
      rw [token_of_kept hignored]
      rfl

/-- The token of a candidate at an aligned cursor is the same in the text and among the tokens. -/
theorem token_cases (h : tk.Fitted p.rules) {tokens : List Token} {offset index : Nat}
    (haligned : Aligned tk input tokens offset index) {c : Candidate} (hc : c ∈ tk.candidates) :
    ((p.session (.text input)).token? c.name offset = .ok none ∧
      (p.session (.tokens tokens.toArray)).token? c.name index = .ok none) ∨
    ∃ token stop steps, (p.session (.text input)).token? c.name offset = .ok (some (token, stop)) ∧
      (p.session (.tokens tokens.toArray)).token? c.name index = .ok (some (token, index + 1)) ∧
      index + 1 ≤ tokens.length ∧ Walk tk input stop steps ∧
      steps.filterMap Step.token = tokens.drop (index + 1) := by
  have htext : (p.session (.text input)).token? c.name offset =
      .ok ((c.automaton.longestAt offset (input.drop offset)).map fun stop =>
        (⟨c.name, (input.drop offset).take (stop - offset), ⟨offset, stop⟩⟩, stop)) := by
    have hget : (p.session (.text input)).automata.get c.name = .ok c.automaton := by
      rw [Automaton.Table.get_eq]
      exact h.automaton c hc
    have hinput : (p.session (.text input)).input = .text input := rfl
    simp only [token?, hinput, hget]
    rfl
  have htokens : (p.session (.tokens tokens.toArray)).token? c.name index =
      .ok ((tokens[index]?.filter fun t => decide (t.name = c.name)).map fun t =>
        (t, index + 1)) := by
    have hinput : (p.session (.tokens tokens.toArray)).input = .tokens tokens.toArray := rfl
    simp only [token?, hinput, List.getElem?_toArray]
  rw [htext, htokens]
  rcases haligned.cases with ⟨rfl, rfl, hclear⟩ |
    ⟨hit, steps, -, hbest, hclear, -, hget, hwalk, hrest⟩
  · rw [List.drop_length, hclear.nil_eq_none hc, List.getElem?_eq_none (Nat.le_refl _)]
    exact Or.inl ⟨rfl, rfl⟩
  · obtain ⟨hmem, -, hmatch⟩ := best_eq_some hbest
    rw [hget]
    by_cases hwinner : c = hit.candidate
    · subst hwinner
      refine Or.inr ⟨tokenOf offset (input.drop offset) hit, hit.stop, steps, ?_, ?_,
        (List.getElem?_eq_some_iff.mp hget).1, hwalk, hrest⟩
      · rw [hmatch]
        rfl
      · simp [tokenOf]
    · have hname : hit.candidate.name ≠ c.name :=
        fun heq => hwinner (h.distinct c hc _ hmem heq.symm)
      rw [hclear.loser_eq_none hbest hc hwinner]
      exact Or.inl ⟨rfl, by simp [tokenOf, hname]⟩

/-- A text that the tokenizer walks through and its tokens are in lockstep. -/
theorem lockstep (h : tk.Fitted p.rules) {steps : List Step} (hwalk : Walk tk input 0 steps)
    (hend : EndsInToken steps) :
    Lockstep p (tk.candidates.map Candidate.name) (.text input)
      (.tokens (steps.filterMap Step.token).toArray)
      (Aligned tk input (steps.filterMap Step.token)) where
  lt_iff hc hd := hc.lt_iff hwalk hend hd
  inside_iff hc := by simpa only [Input.length, List.size_toArray] using hc.inside_iff
  position_eq hc := hc.position_eq hwalk hend
  skip hc := ⟨h.skip_of_none hc.blank_eq_none, rfl⟩
  token := by
    intro offset index haligned name hname
    obtain ⟨c, hc, rfl⟩ := List.mem_map.mp hname
    rcases h.token_cases haligned hc with hnone |
      ⟨token, stop, others, htext, htokens, hle, hrest, hdrop⟩
    · exact Or.inl hnone
    · obtain ⟨offset', steps', hskip, hwalk', hrests, hsame⟩ := h.exists_rest hrest
      have haligned' : Aligned tk input (steps.filterMap Step.token) offset' (index + 1) :=
        ⟨hle, steps', hwalk', hrests, hsame.trans hdrop⟩
      exact Or.inr ⟨token, stop, index + 1, offset', index + 1, htext, htokens, hskip, rfl,
        haligned'⟩
  start := by
    obtain ⟨offset, steps', hskip, hwalk', hrests, hsame⟩ := h.exists_rest hwalk
    exact ⟨offset, 0, hskip, rfl, Nat.zero_le _, steps', hwalk', hrests, hsame⟩

end Tokenizer.Fitted

namespace Grammar.Compiled

variable {g : Grammar}

/-- Each rule that takes part has its candidate. -/
theorem exists_candidate (h : g.Compiled) {r : Rule}
    (hr : r ∈ Tokenizer.candidateRules g.rules g.vocabulary) :
    ∃ c ∈ g.tokenizer.candidates, c.name = r.name := by
  have hnames := map_eq_of_forall₂ (fun _ _ hserves => hserves.name) h.candidates
  exact List.mem_map.mp (hnames ▸ List.mem_map_of_mem hr)

theorem exists_serves (h : g.Compiled) {c : Candidate} (hc : c ∈ g.tokenizer.candidates) :
    ∃ r, Tokenizer.Serves g.rules r c := by
  obtain ⟨i, hi, rfl⟩ := List.getElem_of_mem hc
  exact ⟨_, h.candidates.get (h.candidates.length_eq ▸ hi) hi⟩

theorem fitted (h : g.Compiled) : g.tokenizer.Fitted g.rules where
  automaton c hc := by
    obtain ⟨r, hserves⟩ := h.exists_serves hc
    rw [hserves.name]
    exact hserves.automaton
  distinct := by
    have hnames := map_eq_of_forall₂ (fun _ _ hserves => hserves.name) h.candidates
    have hnodup : (g.tokenizer.candidates.map Candidate.name).Nodup := by
      rw [hnames]
      exact Tokenizer.candidateRules_nodup h.vocabulary
    exact fun c hc d hd heq => List.inj_on_of_nodup_map hnodup hc hd heq
  ignored_iff c hc := by
    obtain ⟨r, hserves⟩ := h.exists_serves hc
    rw [hserves.name]
    exact hserves.ignored
  whitespace r hr := h.exists_candidate (Tokenizer.mem_candidateRules.mpr (Or.inr hr))

/-- What a production refers to is a production or has a candidate. -/
theorem production_or_candidate (h : g.Compiled) {r : Rule} (hr : r ∈ g.rules.rules)
    (hkind : r.kind = .production) {x : Reference} (hx : x ∈ r.references) :
    g.rules.isProduction x.name = true ∨
      x.name ∈ g.tokenizer.candidates.map Candidate.name := by
  obtain ⟨target, hget, -⟩ := h.rules.resolved.target r hr x hx
  have hmem := RuleSet.mem_of_get? hget
  have hname := RuleSet.get?_name hget
  have htakesPart : target ∈ Tokenizer.candidateRules g.rules g.vocabulary →
      x.name ∈ g.tokenizer.candidates.map Candidate.name := by
    intro htarget
    obtain ⟨c, hc, heq⟩ := h.exists_candidate htarget
    exact List.mem_map.mpr ⟨c, hc, heq.trans hname⟩
  cases htarget : target.kind with
  | production => exact Or.inl (RuleSet.isProduction_iff.mpr ⟨target, hget, htarget⟩)
  | token =>
    have hreached : target.name ∈ Vocabulary.reached g.rules := by
      refine Graph.mem_reach_iff.mpr ⟨target.name, ?_, .refl _⟩
      refine List.mem_flatMap.mpr ⟨r, List.mem_filter.mpr ⟨hr, by simpa using hkind⟩, ?_⟩
      exact List.mem_map.mpr ⟨x, hx, hname.symm⟩
    have hreal := (Tokenizer.mem_real h.vocabulary).mpr ⟨hmem, htarget, Or.inr hreached⟩
    exact Or.inr (htakesPart (Tokenizer.mem_candidateRules.mpr (Or.inl hreal)))
  | whitespace =>
    have hwhitespace : g.rules.whitespace = some target := by
      have hblank := h.rules.resolved.blank target hmem htarget
      refine Option.filter_eq_some_iff.mpr ⟨?_, by simpa using htarget⟩
      rw [← hblank]
      exact RuleSet.get?_of_mem hmem
    exact Or.inr (htakesPart (Tokenizer.mem_candidateRules.mpr (Or.inr hwhitespace)))

theorem covered (h : g.Compiled) :
    g.rules.Covered (g.tokenizer.candidates.map Candidate.name) := by
  intro r hr hkind
  have himp : Singular.Implies g.rules.knows
      (g.rules.covers (g.tokenizer.candidates.map Candidate.name))
      (fun x => g.rules.isProduction x.name = true ∨
        x.name ∈ g.tokenizer.candidates.map Candidate.name) := by
    intro x hx hknown
    cases x with
    | symbol name span =>
      have hname := hknown ⟨name, span⟩ (by simp [Singular.references])
      simpa only [RuleSet.covers, Bool.or_eq_true, decide_eq_true_eq] using hname
    | group alternatives => simp [RuleSet.knows] at hx
    | literal source matchers span => simp [RuleSet.knows] at hx
    | charset source matcher span => simp [RuleSet.knows] at hx
  exact Alternation.all_imp himp r.alternatives (h.rules.knows hr hkind)
    fun x hx => h.production_or_candidate hr hkind hx

/-- A text without rivals at the stops is in lockstep with its tokens. -/
theorem lockstep (h : g.Compiled) {input : Text} {tokens : List Token}
    (htokens : g.tokenizer.tokenize input = .ok tokens)
    (hend : Tokenizer.EndsInToken (g.tokenizer.run input).steps)
    (hclear : g.tokenizer.Unambiguous input) :
    Lockstep g.parser (g.tokenizer.candidates.map Candidate.name) (.text input)
      (.tokens tokens.toArray) (Tokenizer.Aligned g.tokenizer input tokens) := by
  have hfitted : g.tokenizer.Fitted g.parser.rules := h.parserRules ▸ h.fitted
  unfold Tokenizer.tokenize Tokenizer.Run.result at htokens
  split at htokens
  · cases htokens
  · next herror =>
    cases htokens
    exact hfitted.lockstep (Tokenizer.walk_of_run herror hclear) hend

end Grammar.Compiled

/-- Where the tokenizer has no choice, parsing a text and parsing its tokens end alike: within the
usual limit, and within any two limits that neither of them exceeds. -/
theorem Grammar.text_agrees_with_tokens {source whitespaceName : Text} {g : Grammar}
    (hg : compile source whitespaceName = .ok g) {input : Text} {tokens : List Token}
    (htokens : g.tokenizer.tokenize input = .ok tokens)
    (hend : Tokenizer.EndsInToken (g.tokenizer.run input).steps)
    (hclear : g.tokenizer.Unambiguous input) :
    (∀ palette start allowTrailing,
      (g.parser.run palette start (.text input) allowTrailing).answer =
        (g.parseText palette start input allowTrailing).answer) ∧
    ∀ limit limit' start allowTrailing,
      (∀ position rule, (g.parser.parse limit start (.text input) allowTrailing).1 ≠
        .error (.parse (.tooDeep position rule))) →
      (∀ position rule, (g.parser.parse limit' start (.tokens tokens.toArray) allowTrailing).1 ≠
        .error (.parse (.tooDeep position rule))) →
      (g.parser.parse limit start (.text input) allowTrailing).1 =
        (g.parser.parse limit' start (.tokens tokens.toArray) allowTrailing).1 := by
  have hcompiled := compiled_of_compile hg
  have hlockstep := hcompiled.lockstep htokens hend hclear
  have hcovered : g.parser.rules.Covered (g.tokenizer.candidates.map Candidate.name) :=
    hcompiled.parserRules ▸ hcompiled.covered
  constructor
  · intro palette start allowTrailing
    have hresult : (g.tokenizer.run input).result = .ok tokens := htokens
    simp only [parseText, hresult]
    exact hlockstep.parse_eq hcovered Parser.defaultLimit start allowTrailing
  · intro limit limit' start allowTrailing hdeep hdeep'
    exact hlockstep.parse_eq_of_within hcovered hdeep hdeep'

def Grammar.sums : Text := Text.ofString "sum ::= num '+' sum | num; num :== [0-9]+; _ :== ' ';"

def Grammar.twoNumbers : Text := Text.ofString "1  + 23"

/-- In a sum of two numbers the tokenizer has no choice, and the sum is parsed. -/
theorem Grammar.text_agrees_with_tokens_sums :
    ∃ g tokens, compile sums (Text.ofString "_") = .ok g ∧
      g.tokenizer.tokenize twoNumbers = .ok tokens ∧
      Tokenizer.EndsInToken (g.tokenizer.run twoNumbers).steps ∧
      g.tokenizer.Unambiguous twoNumbers ∧
      (g.parseText ⟨false⟩ (Text.ofString "sum") twoNumbers false).answer.isOk = true ∧
      ∀ palette start allowTrailing,
        (g.parser.run palette start (.text twoNumbers) allowTrailing).answer =
          (g.parseText palette start twoNumbers allowTrailing).answer := by
  have htest : (compile sums (Text.ofString "_")).toOption.any (fun g =>
      let run := g.tokenizer.run twoNumbers
      run.error.isNone && run.steps.getLast?.all (fun step => step.token.isSome) &&
        run.stops.all (fun p => g.tokenizer.isClear p (twoNumbers.drop p)) &&
        (g.parseText ⟨false⟩ (Text.ofString "sum") twoNumbers false).answer.isOk) = true := by
    decide +kernel
  obtain ⟨g, hg, htest⟩ := exists_compile htest
  simp only [Bool.and_eq_true] at htest
  obtain ⟨⟨⟨herror, hlast⟩, hstops⟩, hok⟩ := htest
  have htokens : g.tokenizer.tokenize twoNumbers = .ok (g.tokenizer.run twoNumbers).tokens := by
    unfold Tokenizer.tokenize Tokenizer.Run.result
    rw [Option.isNone_iff_eq_none.mp herror]
  have hend : Tokenizer.EndsInToken (g.tokenizer.run twoNumbers).steps := by
    intro step hstep
    rw [hstep] at hlast
    exact hlast
  have hclear : g.tokenizer.Unambiguous twoNumbers := by
    intro p hp
    exact (compiled_of_compile hg).fitted.unrivalled_iff.mpr (List.all_eq_true.mp hstops p hp)
  exact ⟨g, _, hg, htokens, hend, hclear, hok, (text_agrees_with_tokens hg htokens hend hclear).1⟩

end GrammarKit
