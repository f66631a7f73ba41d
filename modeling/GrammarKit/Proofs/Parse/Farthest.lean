import GrammarKit.Proofs.Parse.Composition
import GrammarKit.Proofs.Parse.Conduct
import GrammarKit.Proofs.Rule.WellFormed

/-!
How far a parse has come when it reports an error. While a part is tried, every token that was taken
so far ends at the cursor or before a failure on record. A part that matches moves the cursor, and a
part that does not match puts a failure on record at its own cursor or behind it: a token does so
where it is missed, a rule where it is rejected, and an alternation because its last alternative
does. So when a parse gives up, no token that it ever took ends behind the place it reports.
-/
namespace GrammarKit

def Trace.Within (trace : Trace) (cursor : Nat) : Prop :=
  ∀ name first stop, Event.tokenTaken name first stop ∈ trace → stop ≤ cursor

namespace Progress

def FailedPast (progress : Progress) (cursor : Nat) : Prop :=
  ∃ f, progress.farthest = some f ∧ cursor ≤ f.cursor

/-- All tokens that were taken end at a cursor or before, or else before a failure. -/
def Covers (progress : Progress) (cursor : Nat) : Prop :=
  ∀ name first stop, Event.tokenTaken name first stop ∈ progress.trace →
    stop ≤ cursor ∨ progress.FailedPast stop

/-- The farthest failure is a failure on record, and no other one is farther. -/
structure Marked (progress : Progress) : Prop where
  bound : ∀ failure ∈ progress.trace.failures, progress.FailedPast failure.1
  attained : ∀ f, progress.farthest = some f →
    ∃ name, (f.cursor, name) ∈ progress.trace.failures

variable {progress : Progress} {cursor middle : Nat}

theorem FailedPast.mono (h : progress.FailedPast middle) (hle : cursor ≤ middle) :
    progress.FailedPast cursor := by
  obtain ⟨f, hf, hmiddle⟩ := h
  exact ⟨f, hf, by omega⟩

/-- The farthest failure after one more failure is at its cursor or at the cursor it was at, and
before neither of them. -/
theorem note_cases (farthest : Option Farthest) (cursor : Nat) (name : Text) :
    ∃ f, Farthest.note farthest cursor name = some f ∧ cursor ≤ f.cursor ∧
      (∀ g, farthest = some g → g.cursor ≤ f.cursor) ∧
      (f.cursor = cursor ∨ ∃ g, farthest = some g ∧ f.cursor = g.cursor) := by
  unfold Farthest.note
  cases farthest with
  | none => exact ⟨_, rfl, Nat.le_refl _, nofun, Or.inl rfl⟩
  | some g =>
    by_cases hlt : g.cursor < cursor
    · refine ⟨⟨cursor, [name]⟩, if_pos hlt, Nat.le_refl _, ?_, Or.inl rfl⟩
      intro g' hg'
      cases hg'
      exact Nat.le_of_lt hlt
    · simp only [if_neg hlt]
      by_cases hnew : g.cursor = cursor ∧ name ∉ g.names
      · refine ⟨{ g with names := g.names ++ [name] }, if_pos hnew, ?_, ?_, Or.inr ⟨g, rfl, rfl⟩⟩
        · exact Nat.le_of_not_lt hlt
        · intro g' hg'
          cases hg'
          exact Nat.le_refl _
      · refine ⟨g, if_neg hnew, Nat.le_of_not_lt hlt, ?_, Or.inr ⟨g, rfl, rfl⟩⟩
        intro g' hg'
        cases hg'
        exact Nat.le_refl _

theorem FailedPast.record (h : progress.FailedPast cursor) (e : Event) :
    (progress.record e).FailedPast cursor := by
  obtain ⟨g, hg, hle⟩ := h
  cases hfailure : e.failure? with
  | none => exact ⟨g, by simp only [Progress.record, hfailure, hg], hle⟩
  | some failure =>
    obtain ⟨f, hf, -, hbound, -⟩ := note_cases progress.farthest failure.1 failure.2
    refine ⟨f, by simp only [Progress.record, hfailure, hf], ?_⟩
    have hg := hbound g hg
    omega

theorem failedPast_record {e : Event} {name : Text} (h : e.failure? = some (cursor, name)) :
    (progress.record e).FailedPast cursor := by
  obtain ⟨f, hf, hle, -⟩ := note_cases progress.farthest cursor name
  exact ⟨f, by simp only [Progress.record, h, hf], hle⟩

theorem Covers.mono (h : progress.Covers cursor) (hle : cursor ≤ middle) :
    progress.Covers middle := by
  intro name first stop htaken
  rcases h name first stop htaken with hstop | hfailed
  · exact Or.inl (by omega)
  · exact Or.inr hfailed

/-- Once a failure is on record at the cursor or behind it, the cursor may go back. -/
theorem Covers.back (h : progress.Covers middle) (hfailed : progress.FailedPast middle)
    (cursor : Nat) : progress.Covers cursor := by
  intro name first stop htaken
  rcases h name first stop htaken with hstop | hfailed'
  · exact Or.inr (hfailed.mono hstop)
  · exact Or.inr hfailed'

theorem Covers.record (h : progress.Covers cursor) {e : Event}
    (he : ∀ name first stop, e = .tokenTaken name first stop → stop ≤ cursor) :
    (progress.record e).Covers cursor := by
  intro name first stop htaken
  rcases List.mem_cons.mp htaken with heq | htaken
  · exact Or.inl (he name first stop heq.symm)
  · rcases h name first stop htaken with hstop | hfailed
    · exact Or.inl hstop
    · exact Or.inr (hfailed.record e)

theorem initial_covers (cursor : Nat) : Progress.initial.Covers cursor := nofun

theorem initial_marked : Progress.initial.Marked := ⟨nofun, nofun⟩

theorem mem_failures_record {e : Event} {failure : Nat × Text} :
    failure ∈ (progress.record e).trace.failures ↔
      e.failure? = some failure ∨ failure ∈ progress.trace.failures := by
  simp only [Trace.failures, Progress.record, List.mem_reverse, List.mem_filterMap, List.mem_cons]
  constructor
  · intro h
    obtain ⟨e', rfl | he', hfailure⟩ := h
    · exact Or.inl hfailure
    · exact Or.inr ⟨e', he', hfailure⟩
  · intro h
    rcases h with hfailure | ⟨e', he', hfailure⟩
    · exact ⟨e, Or.inl rfl, hfailure⟩
    · exact ⟨e', Or.inr he', hfailure⟩

theorem Marked.record (h : progress.Marked) (e : Event) : (progress.record e).Marked := by
  constructor
  · intro failure hfailure
    rcases mem_failures_record.mp hfailure with hnew | hold
    · exact failedPast_record hnew
    · exact (h.bound failure hold).record e
  · intro f hf
    cases hfailure : e.failure? with
    | none =>
      simp only [Progress.record, hfailure] at hf
      obtain ⟨name, hname⟩ := h.attained f hf
      exact ⟨name, mem_failures_record.mpr (Or.inr hname)⟩
    | some failure =>
      obtain ⟨f', hf', -, -, hcursor⟩ := note_cases progress.farthest failure.1 failure.2
      simp only [Progress.record, hfailure, hf', Option.some.injEq] at hf
      subst hf
      rcases hcursor with heq | ⟨g, hg, heq⟩
      · refine ⟨failure.2, mem_failures_record.mpr (Or.inl ?_)⟩
        rw [hfailure, heq]
      · obtain ⟨name, hname⟩ := h.attained g hg
        refine ⟨name, mem_failures_record.mpr (Or.inr ?_)⟩
        rwa [heq]

theorem Covers.within (h : progress.Covers cursor) {bound : Nat} (hle : cursor ≤ bound)
    (hbound : ∀ f, progress.farthest = some f → f.cursor ≤ bound) :
    progress.trace.Within bound := by
  intro name first stop htaken
  rcases h name first stop htaken with hstop | ⟨f, hf, hstop⟩
  · omega
  · have hcursor := hbound f hf
    omega

theorem Marked.isGreatest (h : progress.Marked) {f : Farthest} (hf : progress.farthest = some f) :
    IsGreatest {c | ∃ name, (c, name) ∈ progress.trace.failures} f.cursor := by
  refine ⟨h.attained f hf, ?_⟩
  intro c hc
  obtain ⟨name, hname⟩ := hc
  obtain ⟨f', hf', hle⟩ := h.bound _ hname
  rw [hf, Option.some.injEq] at hf'
  rw [hf']
  exact hle

end Progress

/-- How a part leaves the record that was tried at a cursor. -/
def Outcome.Explored (cursor : Nat) (o : Outcome) (progress : Progress) : Prop :=
  match o with
  | some m => cursor ≤ m.stop ∧ progress.Covers m.stop
  | none => progress.Covers cursor ∧ progress.FailedPast cursor

namespace Session

open Attempt

variable {s : Session}

def Explores (part : Nat → Attempt Outcome) : Prop :=
  ∀ cursor, Ensures (fun progress => progress.Covers cursor) (part cursor)
    (Outcome.Explored cursor) fun _ _ => True

/-- Events that are no tokens change nothing. -/
theorem ensures_quiet_bind {α : Type} {e : Event}
    (he : ∀ name first stop, e ≠ .tokenTaken name first stop) {cursor : Nat}
    {f : Unit → Attempt α} {post : α → Progress → Prop} {exit : Halt → Progress → Prop}
    (h : Ensures (fun progress => progress.Covers cursor) (f ()) post exit) :
    Ensures (fun progress => progress.Covers cursor) (record e >>= f) post exit := by
  refine ensures_record_bind (fun progress hcovers => hcovers.record ?_) h
  intro name first stop heq
  exact absurd heq (he name first stop)

theorem takeToken_explores (hs : s.rules.Sound) {name : Text}
    (hknown : s.rules.contains name = true) (hlexical : s.rules.isProduction name = false) :
    Explores (s.takeToken name) := by
  intro cursor
  unfold takeToken
  rcases token?_cases hs hknown hlexical cursor with ⟨token, middle, htoken, htakes⟩ | ⟨htoken, -⟩
  · obtain ⟨stop, hskip, hskips⟩ := skip_cases hs middle
    have htaken := htakes.bounds
    have hskipped := hskips.bounds
    have hle : cursor ≤ stop := by omega
    apply ensures_ofFault_bind htoken
    apply ensures_ofFault_bind hskip
    refine ensures_record_bind (fun progress hcovers => (hcovers.mono hle).record ?_)
      (Ensures.of_pure fun _ hcovers => ⟨hle, hcovers⟩)
    intro _ _ stop' heq
    cases heq
    exact Nat.le_refl _
  · apply ensures_ofFault_bind htoken
    exact ensures_record_bind (fun progress hcovers =>
      ⟨hcovers.record nofun, Progress.failedPast_record rfl⟩) (Ensures.of_pure fun _ h => h)

/-- White space behind a match moves the cursor on. -/
theorem settle_explores (hs : s.rules.Sound) (cursor : Nat) (o : Outcome) :
    Ensures (o.Explored cursor) (s.settle o) (Outcome.Explored cursor) fun _ _ => True := by
  cases o with
  | none => exact Ensures.of_pure fun _ h => h
  | some m =>
    obtain ⟨stop, hskip, hskips⟩ := skip_cases hs m.stop
    have hskipped := hskips.bounds
    apply ensures_ofFault_bind hskip
    apply Ensures.of_pure
    intro progress hm
    exact ⟨Nat.le_trans hm.1 hskipped.1, hm.2.mono hskipped.1⟩

/-- A row of matches moves the cursor, and a row of none puts a failure on record. -/
theorem takeAll_explores {part : Nat → Attempt Outcome} (hpart : Explores part)
    (length cursor : Nat) :
    Ensures (fun progress => progress.Covers cursor) (takeAll length part cursor)
      (fun r progress => cursor ≤ r.2.stop ∧ progress.Covers r.2.stop ∧
        (r.1 = 0 → r.2.stop = cursor ∧ progress.FailedPast cursor)) fun _ _ => True := by
  induction hleft : length - cursor using Nat.strong_induction_on generalizing cursor with
  | _ left ih =>
    unfold takeAll
    refine ensures_quiet_bind (by nofun) ?_
    refine Ensures.bind (hpart cursor) fun o => ?_
    cases o with
    | none =>
      apply Ensures.of_pure
      intro progress hnone
      exact ⟨Nat.le_refl _, hnone.1, fun _ => ⟨rfl, hnone.2⟩⟩
    | some m =>
      by_cases hgo : cursor < m.stop ∧ cursor < length
      · simp only [if_pos hgo]
        have hrest := (ih (length - m.stop) (by omega) m.stop rfl).imp
          (fun _ (hm : cursor ≤ m.stop ∧ _) => hm.2) (fun _ _ h => h) fun _ _ h => h
        refine Ensures.bind hrest fun r => ?_
        apply Ensures.of_pure
        intro progress hr
        exact ⟨Nat.le_trans (Nat.le_of_lt hgo.1) hr.1, hr.2.1, nofun⟩
      · simp only [if_neg hgo]
        apply Ensures.of_pure
        intro progress hm
        exact ⟨hm.1, hm.2, nofun⟩

theorem quantified_explores {part : Nat → Attempt Outcome} (hpart : Explores part)
    (quantifier : Quantifier) : Explores (s.quantified quantifier part) := by
  intro cursor
  unfold quantified
  cases quantifier with
  | one => exact hpart cursor
  | maybe =>
    refine Ensures.bind (hpart cursor) fun o => ?_
    cases o with
    | none => exact Ensures.of_pure fun _ hnone => ⟨Nat.le_refl _, hnone.1⟩
    | some m => exact Ensures.of_pure fun _ hm => hm
  | any =>
    refine Ensures.bind (takeAll_explores hpart s.length cursor) fun r => ?_
    exact Ensures.of_pure fun _ hr => ⟨hr.1, hr.2.1⟩
  | many =>
    refine Ensures.bind (takeAll_explores hpart s.length cursor) fun r => ?_
    apply Ensures.of_pure
    intro progress hr
    by_cases hcount : r.1 = 0
    · obtain ⟨hstop, hfailed⟩ := hr.2.2 hcount
      rw [if_pos hcount]
      exact ⟨hstop ▸ hr.2.1, hfailed⟩
    · rw [if_neg hcount]
      exact ⟨hr.1, hr.2.1⟩

def CallsExplore (s : Session) (call : Text → Nat → Attempt Outcome) : Prop :=
  ∀ name, s.rules.isProduction name = true → Explores (call name)

section Parts

variable {call : Text → Nat → Attempt Outcome}

mutual

/-- A part explores if the rules it calls do, because no group is empty. -/
theorem singular_explores (hs : s.rules.Sound) (hcall : s.CallsExplore call) :
    ∀ (x : Singular), x.all s.rules.knows = true → x.isFilled = true →
      Explores (singular s call x)
  | .group alternatives, hknows, hfilled, cursor => by
    simp only [Singular.all] at hknows
    simp only [Singular.isFilled, Bool.and_eq_true, Bool.not_eq_true'] at hfilled
    simp only [singular]
    have hne : alternatives ≠ [] := by
      intro hnil
      rw [hnil] at hfilled
      cases hfilled.1
    refine ensures_quiet_bind (by nofun) ?_
    refine Ensures.bind (alternation_explores hs hcall alternatives hne hknows hfilled.2 cursor)
      fun o => ?_
    exact settle_explores hs cursor o
  | .symbol name span, hknows, _, cursor => by
    simp only [Singular.all, RuleSet.knows] at hknows
    simp only [singular]
    by_cases hproduction : s.rules.isProduction name = true
    · rw [if_pos hproduction]
      exact Ensures.bind (hcall name hproduction cursor) fun o => settle_explores hs cursor o
    · rw [if_neg hproduction]
      exact takeToken_explores hs hknows (by simpa using hproduction) cursor
  | .literal source matchers span, hknows, _, _ => by
    simp [Singular.all, RuleSet.knows] at hknows
  | .charset source matcher span, hknows, _, _ => by
    simp [Singular.all, RuleSet.knows] at hknows

theorem alternation_explores (hs : s.rules.Sound) (hcall : s.CallsExplore call) :
    ∀ (alternatives : List (Alternative (Item Singular))), alternatives ≠ [] →
      Alternation.all s.rules.knows alternatives = true →
      Alternation.isFilled alternatives = true → Explores (alternation s call alternatives)
  | [], hne, _, _, _ => absurd rfl hne
  | a :: rest, _, hknows, hfilled, cursor => by
    simp only [Alternation.all, Bool.and_eq_true] at hknows
    simp only [Alternation.isFilled, Bool.and_eq_true] at hfilled
    simp only [alternation]
    refine Ensures.bind (alternative_explores hs hcall a hknows.1 hfilled.1 cursor) fun o => ?_
    cases o with
    | some m => exact Ensures.of_pure fun _ hm => hm
    | none =>
      by_cases hrest : rest = []
      · rw [hrest]
        simp only [alternation]
        exact Ensures.of_pure fun _ hnone => hnone
      · refine (alternation_explores hs hcall rest hrest hknows.2 hfilled.2 cursor).imp
          (fun _ hnone => hnone.1) (fun _ _ h => h) fun _ _ h => h

theorem alternative_explores (hs : s.rules.Sound) (hcall : s.CallsExplore call) :
    ∀ (a : Alternative (Item Singular)), Alternative.all s.rules.knows a = true →
      Alternative.isFilled a = true → Explores (alternative s call a)
  | ⟨_, _, items, _⟩, hknows, hfilled, cursor => by
    simp only [Alternative.all] at hknows
    simp only [Alternative.isFilled, Bool.and_eq_true] at hfilled
    simp only [alternative]
    exact body_explores hs hcall items hknows hfilled.2 cursor

theorem body_explores (hs : s.rules.Sound) (hcall : s.CallsExplore call) :
    ∀ (items : List (Item Singular)), Body.all s.rules.knows items = true →
      Body.isFilled items = true → Explores (body s call items)
  | [], _, _, cursor => by
    simp only [body]
    exact Ensures.of_pure fun _ hcovers => ⟨Nat.le_refl _, hcovers⟩
  | i :: rest, hknows, hfilled, cursor => by
    simp only [Body.all, Bool.and_eq_true] at hknows
    simp only [Body.isFilled, Bool.and_eq_true] at hfilled
    simp only [body]
    refine Ensures.bind (item_explores hs hcall i hknows.1 hfilled.1 cursor) fun o => ?_
    cases o with
    | none => exact Ensures.of_pure fun _ hnone => hnone
    | some m =>
      intro progress hm
      have hrest := body_explores hs hcall rest hknows.2 hfilled.2 m.stop
      refine Ensures.bind hrest (fun o' => ?_) progress hm.2
      cases o' with
      | none =>
        apply Ensures.of_pure
        intro progress' hnone
        exact ⟨hnone.1.back hnone.2 cursor, hnone.2.mono hm.1⟩
      | some n =>
        apply Ensures.of_pure
        intro progress' hn
        exact ⟨Nat.le_trans hm.1 hn.1, hn.2⟩

theorem item_explores (hs : s.rules.Sound) (hcall : s.CallsExplore call) :
    ∀ (i : Item Singular), Item.all s.rules.knows i = true → Item.isFilled i = true →
      Explores (item s call i)
  | ⟨inner, quantifier⟩, hknows, hfilled, cursor => by
    simp only [Item.all] at hknows
    simp only [Item.isFilled] at hfilled
    simp only [item]
    exact quantified_explores (singular_explores hs hcall inner hknows hfilled) quantifier cursor

end

/-- The rejection that follows a choice is put on record by the rule. -/
theorem choose_explores (hs : s.rules.Sound) (hcall : s.CallsExplore call)
    (alternatives : Alternation) (hknows : Alternation.all s.rules.knows alternatives = true)
    (hfilled : Alternation.isFilled alternatives = true) (cursor : Nat) :
    ∀ index, Ensures (fun progress => progress.Covers cursor)
      (choose s call index alternatives cursor) (fun r progress => match r with
        | some (_, m) => cursor ≤ m.stop ∧ progress.Covers m.stop
        | none => progress.Covers cursor) fun _ _ => True := by
  induction alternatives with
  | nil => exact fun index => Ensures.of_pure fun _ hcovers => hcovers
  | cons a rest ih =>
    intro index
    simp only [Alternation.all, Bool.and_eq_true] at hknows
    simp only [Alternation.isFilled, Bool.and_eq_true] at hfilled
    simp only [choose]
    refine Ensures.bind (alternative_explores hs hcall a hknows.1 hfilled.1 cursor) fun o => ?_
    cases o with
    | some m => exact Ensures.of_pure fun _ hm => hm
    | none =>
      exact (ih hknows.2 hfilled.2 (index + 1)).imp (fun _ hnone => hnone.1) (fun _ _ h => h)
        fun _ _ h => h

theorem expand_explores (hs : s.rules.Sound) (hcall : s.CallsExplore call) {r : Rule}
    (hknows : Alternation.all s.rules.knows r.alternatives = true)
    (hfilled : Alternation.isFilled r.alternatives = true) (active : List Frame) :
    Explores (s.expand call active r) := by
  intro cursor
  refine ensures_quiet_bind (by nofun) ?_
  refine Ensures.bind (choose_explores hs hcall r.alternatives hknows hfilled cursor 0) fun o => ?_
  cases o with
  | none =>
    exact ensures_record_bind (fun progress hcovers =>
      ⟨hcovers.record nofun, Progress.failedPast_record rfl⟩) (Ensures.of_pure fun _ h => h)
  | some chosen =>
    exact ensures_record_bind (fun progress hm => ⟨hm.1, hm.2.record nofun⟩)
      (Ensures.of_pure fun _ h => h)

end Parts

theorem enter_explores {active : List Frame} {name : Text} {r : Rule}
    (hget : s.rules.get? name = some r) {cursor : Nat} {go : Rule → Attempt Outcome}
    (hgo : Ensures (fun progress => progress.Covers cursor) (go r) (Outcome.Explored cursor)
      fun _ _ => True) :
    Ensures (fun progress => progress.Covers cursor) (s.enter active name cursor go)
      (Outcome.Explored cursor) fun _ _ => True := by
  simp only [enter, hget]
  by_cases hactive : (⟨name, cursor⟩ : Frame) ∈ active
  · rw [if_pos hactive]
    exact Ensures.of_throw fun _ _ => trivial
  · rw [if_neg hactive]
    exact hgo

/-- Calls of rules explore whatever the limit is. -/
theorem rule_explores (hs : s.rules.Sound)
    (hfilled : ∀ r ∈ s.rules.rules, Alternation.isFilled r.alternatives = true) (limit : Nat) :
    ∀ active, s.CallsExplore (s.rule limit active) := by
  induction limit with
  | zero =>
    intro active name hproduction cursor
    obtain ⟨r, hget, -⟩ := RuleSet.isProduction_iff.mp hproduction
    simp only [rule]
    exact enter_explores hget (Ensures.of_throw fun _ _ => trivial)
  | succ limit ih =>
    intro active name hproduction cursor
    obtain ⟨r, hget, hkind⟩ := RuleSet.isProduction_iff.mp hproduction
    have hr := RuleSet.mem_of_get? hget
    simp only [rule]
    apply enter_explores hget
    exact expand_explores hs (ih _) (hs.knows hr hkind) (hfilled r hr) active cursor

end Session

namespace Parser

variable {p : Parser} {limit : Nat} {start : Text} {input : Input} {allowTrailing : Bool}

/-- How the start rule leaves the record. -/
theorem explored_of_run (hp : p.rules.Sound)
    (hfilled : ∀ r ∈ p.rules.rules, Alternation.isFilled r.alternatives = true)
    (hstart : p.rules.isProduction start = true) {cursor : Nat} {o : Outcome} {progress : Progress}
    (hrun : ((p.session input).rule limit [] start cursor).run.run Progress.initial =
      (.ok o, progress)) :
    o.Explored cursor progress ∧ progress.Marked := by
  have hminds : (p.session input).Minds (fun _ => True) Progress.Marked :=
    { token := fun _ _ _ => trivial
      skip := fun _ _ => trivial
      sound := hp
      record := fun _ hmarked => hmarked.record _ }
  have hexplores := Session.rule_explores (s := p.session input) hp hfilled limit [] start hstart
    cursor
  have hkeeps := Session.rule_keeps hminds limit (Session.Stack.nil _ _) start hstart cursor trivial
  refine ⟨hexplores.answer (Progress.initial_covers cursor) hrun, ?_⟩
  exact (hkeeps.answer Progress.initial_marked hrun).1

/-- How a parse comes to an error of the input: its start rule is no production, it halts, or the
start rule comes to an outcome that is not good enough. -/
theorem parse_eq_error (hp : p.rules.Sound) {e : ParseError}
    (h : (p.parse limit start input allowTrailing).1 = .error (.parse e)) :
    e = .unknownRule start ∨ (∃ halt, ofHalt input halt = .parse e) ∨
      ∃ cursor o progress, p.rules.isProduction start = true ∧ (p.session input).Skips 0 cursor ∧
        ((p.session input).rule limit [] start cursor).run.run Progress.initial =
          (.ok o, progress) ∧
        (p.parse limit start input allowTrailing).2 = progress.trace ∧
        ((o = none ∧ e = noAlternativeMatched input progress.farthest) ∨
          ∃ m, o = some m ∧
            judge start input allowTrailing progress.farthest m = .error (.parse e)) := by
  unfold parse at h ⊢
  by_cases hstart : p.rules.isProduction start = true
  · obtain ⟨cursor, hskip, hskips⟩ := (p.session input).skip_cases hp 0
    rw [if_pos hstart, run_attempt hskip] at h
    rw [if_pos hstart, run_attempt hskip]
    generalize hrun : ((p.session input).rule limit [] start cursor).run.run Progress.initial =
      run at h
    obtain ⟨halt | o, progress⟩ := run
    · exact Or.inr (Or.inl ⟨halt, Except.error.inj h⟩)
    · refine Or.inr (Or.inr ⟨cursor, o, progress, hstart, hskips, hrun, rfl, ?_⟩)
      cases o with
      | none =>
        cases h
        exact Or.inl ⟨rfl, rfl⟩
      | some m => exact Or.inr ⟨m, rfl, h⟩
  · rw [if_neg hstart] at h
    cases h
    exact Or.inl rfl

/-- When a parse finds no alternative, it reports the farthest failure, and no token that it took
ends behind it. -/
theorem farthest_of_noAlternativeMatched (hp : p.rules.Sound)
    (hfilled : ∀ r ∈ p.rules.rules, Alternation.isFilled r.alternatives = true) {position : Int}
    {names : List Text} (h : (p.parse limit start input allowTrailing).1 =
      .error (.parse (.noAlternativeMatched position names))) :
    ∃ cursor, position = input.position cursor ∧
      IsGreatest {c | ∃ name, (c, name) ∈ (p.parse limit start input allowTrailing).2.failures}
        cursor ∧
      (p.parse limit start input allowTrailing).2.Within cursor := by
  rcases parse_eq_error hp h with he | ⟨halt, he⟩ |
    ⟨cursor, o, progress, hstart, -, hrun, htrace, ho⟩
  · cases he
  · cases halt with
    | noProgress frame => cases he
    | tooDeep frame => cases he
    | fault f => cases he
  · obtain ⟨hexplored, hmarked⟩ := explored_of_run hp hfilled hstart hrun
    have hfarthest : ∃ f, progress.farthest = some f ∧
        ParseError.noAlternativeMatched position names =
          noAlternativeMatched input progress.farthest ∧
        ∃ reached, progress.Covers reached ∧ reached ≤ f.cursor := by
      rcases ho with ⟨rfl, he⟩ | ⟨m, rfl, hjudge⟩
      · obtain ⟨f, hf, hle⟩ := hexplored.2
        exact ⟨f, hf, he, cursor, hexplored.1, hle⟩
      · obtain ⟨-, ⟨f, hf, hle, he⟩ | ⟨-, he⟩⟩ := judge_eq_error hjudge
        · exact ⟨f, hf, he, m.stop, hexplored.2, hle⟩
        · cases he
    obtain ⟨f, hf, he, reached, hcovers, hle⟩ := hfarthest
    rw [hf] at he
    cases he
    rw [htrace]
    refine ⟨f.cursor, rfl, hmarked.isGreatest hf, hcovers.within hle ?_⟩
    intro f' hf'
    rw [hf, Option.some.injEq] at hf'
    rw [hf']

/-- When a parse reports input that is left, it reports where the match of the start rule ends, and
no token that it took ends behind it. -/
theorem farthest_of_trailingInput (hp : p.rules.Tagged p.variants)
    (hfilled : ∀ r ∈ p.rules.rules, Alternation.isFilled r.alternatives = true) {position : Int}
    {rule : Text} (h : (p.parse limit start input allowTrailing).1 =
      .error (.parse (.trailingInput position rule))) :
    ∃ cursor m, (p.session input).Skips 0 cursor ∧
      (p.session input).Derives (.rule start) cursor (some m) ∧
      position = input.position m.stop ∧
      (p.parse limit start input allowTrailing).2.Within m.stop := by
  rcases parse_eq_error hp.toSound h with he | ⟨halt, he⟩ |
    ⟨cursor, o, progress, hstart, hskips, hrun, htrace, ho⟩
  · cases he
  · cases halt with
    | noProgress frame => cases he
    | tooDeep frame => cases he
    | fault f => cases he
  · obtain ⟨hexplored, -⟩ := explored_of_run hp.toSound hfilled hstart hrun
    rcases ho with ⟨-, he⟩ | ⟨m, rfl, hjudge⟩
    · cases he
    · obtain ⟨-, ⟨f, -, -, he⟩ | ⟨hbehind, he⟩⟩ := judge_eq_error hjudge
      · cases he
      · cases he
        have hderives := ((p.session input).rule_sound hp limit [] start hstart cursor).answer hrun
        rw [htrace]
        refine ⟨cursor, m, hskips, hderives, rfl, ?_⟩
        exact hexplored.2.within (Nat.le_refl _) fun f hf => Nat.le_of_lt (hbehind f hf)

end Parser

namespace Grammar

/-- Errors point at the farthest place that the parse got to. Where no alternative matched, this is
the greatest cursor at which an attempt failed; where input is left, it is the end of what the start
rule derives. In either case no token that was taken at any time ends behind it. -/
theorem errors_farthest {source whitespaceName : Text} {g : Grammar}
    (hg : compile source whitespaceName = .ok g) (limit : Nat) (start : Text) (input : Input)
    (allowTrailing : Bool) :
    (∀ position names, (g.parser.parse limit start input allowTrailing).1 =
        .error (.parse (.noAlternativeMatched position names)) →
      ∃ cursor, position = input.position cursor ∧
        IsGreatest {c | ∃ name, (c, name) ∈
          (g.parser.parse limit start input allowTrailing).2.failures} cursor ∧
        (g.parser.parse limit start input allowTrailing).2.Within cursor) ∧
    ∀ position rule, (g.parser.parse limit start input allowTrailing).1 =
        .error (.parse (.trailingInput position rule)) →
      ∃ cursor m, (g.parser.session input).Skips 0 cursor ∧
        (g.parser.session input).Derives (.rule start) cursor (some m) ∧
        position = input.position m.stop ∧
        (g.parser.parse limit start input allowTrailing).2.Within m.stop := by
  have hcompiled := compiled_of_compile hg
  have hwellFormed := readRules_wellFormed (readRules_of_compile hg).1
  have hfilled : ∀ r ∈ g.parser.rules.rules, Alternation.isFilled r.alternatives = true := by
    rw [hcompiled.parserRules]
    exact fun r hr => (hwellFormed.filled r hr).2
  constructor
  · intro position names h
    exact Parser.farthest_of_noAlternativeMatched hcompiled.tagged.toSound hfilled h
  · intro position rule h
    exact Parser.farthest_of_trailingInput hcompiled.tagged hfilled h

def twoWords : Text := Text.ofString "a ::= 'x' ('y' 'z')+ | 'x' 'w';"

/-- On `xyw` the first alternative got as far as the `w`, the second one only as far as the `y`. On
`xwy` the second one matches, and the `y` is left. -/
theorem errors_farthest_twoWords :
    ∃ g, compile twoWords (Text.ofString "_") = .ok g ∧
      (g.parser.parse 9 (Text.ofString "a") (.text (Text.ofString "xyw")) false).1 =
        .error (.parse (.noAlternativeMatched 2 [Text.ofString "'z'"])) ∧
      (∃ cursor, 2 = (Input.text (Text.ofString "xyw")).position cursor ∧
        IsGreatest {c | ∃ name, (c, name) ∈ (g.parser.parse 9 (Text.ofString "a")
          (.text (Text.ofString "xyw")) false).2.failures} cursor ∧
        (g.parser.parse 9 (Text.ofString "a") (.text (Text.ofString "xyw")) false).2.Within
          cursor) ∧
      (g.parser.parse 9 (Text.ofString "a") (.text (Text.ofString "xwy")) false).1 =
        .error (.parse (.trailingInput 2 (Text.ofString "a"))) ∧
      ∃ cursor m, (g.parser.session (.text (Text.ofString "xwy"))).Skips 0 cursor ∧
        (g.parser.session (.text (Text.ofString "xwy"))).Derives (.rule (Text.ofString "a"))
          cursor (some m) ∧
        2 = (Input.text (Text.ofString "xwy")).position m.stop ∧
        (g.parser.parse 9 (Text.ofString "a") (.text (Text.ofString "xwy")) false).2.Within
          m.stop := by
  have htest : (compile twoWords (Text.ofString "_")).toOption.any (fun g =>
      (match (g.parser.parse 9 (Text.ofString "a") (.text (Text.ofString "xyw")) false).1 with
      | .error (.parse e) => decide (e = .noAlternativeMatched 2 [Text.ofString "'z'"])
      | _ => false) &&
      match (g.parser.parse 9 (Text.ofString "a") (.text (Text.ofString "xwy")) false).1 with
      | .error (.parse e) => decide (e = .trailingInput 2 (Text.ofString "a"))
      | _ => false) = true := by
    decide +kernel
  obtain ⟨g, hg, htest⟩ := exists_compile htest
  obtain ⟨hfirst, hsecond⟩ := Bool.and_eq_true_iff.mp htest
  have hmissed : (g.parser.parse 9 (Text.ofString "a") (.text (Text.ofString "xyw")) false).1 =
      .error (.parse (.noAlternativeMatched 2 [Text.ofString "'z'"])) := by
    split at hfirst
    · next e he => rw [he, of_decide_eq_true hfirst]
    · cases hfirst
  have hleft : (g.parser.parse 9 (Text.ofString "a") (.text (Text.ofString "xwy")) false).1 =
      .error (.parse (.trailingInput 2 (Text.ofString "a"))) := by
    split at hsecond
    · next e he => rw [he, of_decide_eq_true hsecond]
    · cases hsecond
  exact ⟨g, hg, hmissed, (errors_farthest hg _ _ _ _).1 _ _ hmissed, hleft,
    (errors_farthest hg _ _ _ _).2 _ _ hleft⟩

end Grammar

end GrammarKit
