import GrammarKit.Parse.Input
import GrammarKit.Proofs.Tokenizer.Course

/-!
The places where a tokenizer stops. A walk is a course from one stop to the next up to the end of
the input on which the winner is the only candidate that has a match at all. Tokenizing an input
that is accepted and has no rivals at its stops is such a walk. Where the walk goes on with a token,
or is at its end, the offset in the input and the number of tokens before it are aligned.
-/
namespace GrammarKit.Tokenizer

variable {tk : Tokenizer} {input : Text}

/-- No candidate but the winner has a match at a position, not even an empty one. -/
def Unrivalled (tk : Tokenizer) (position : Nat) (rest : Text) : Prop :=
  ∀ c ∈ tk.candidates, (∀ hit, tk.best position rest = some hit → c ≠ hit.candidate) →
    c.automaton.longestAt position rest = none

inductive Walk (tk : Tokenizer) (input : Text) : Nat → List Step → Prop where
  | done (hclear : tk.Unrivalled input.length []) : Walk tk input input.length []
  | step {position : Nat} {hit : Hit} {steps : List Step} (hlt : position < input.length)
      (hbest : tk.best position (input.drop position) = some hit)
      (hclear : tk.Unrivalled position (input.drop position))
      (rest : Walk tk input hit.stop steps) :
      Walk tk input position (stepOf position (input.drop position) hit :: steps)

def Run.stops (run : Run) : List Nat := 0 :: run.steps.map Step.position

/-- At no stop does a candidate match that is not the winner. -/
def Unambiguous (tk : Tokenizer) (input : Text) : Prop :=
  ∀ p ∈ (tk.run input).stops, tk.Unrivalled p (input.drop p)

theorem walk_of_course {position : Nat} {steps : List Step}
    (h : Course tk input position steps none)
    (hclear : ∀ p ∈ position :: steps.map Step.position, tk.Unrivalled p (input.drop p)) :
    Walk tk input position steps := by
  generalize hnone : none = error at h
  induction h with
  | done =>
    have hlast := hclear input.length List.mem_cons_self
    rw [List.drop_length] at hlast
    exact .done hlast
  | stuck => cases hnone
  | @step position hit steps error hlt hbest rest ih =>
    refine .step hlt hbest (hclear position List.mem_cons_self) (ih ?_ hnone)
    intro p hp
    exact hclear p (List.mem_cons_of_mem _ hp)

/-- Tokenizing an accepted input walks from its start to its end. -/
theorem walk_of_run (herror : (tk.run input).error = none) (hclear : tk.Unambiguous input) :
    Walk tk input 0 (tk.run input).steps := by
  have hcourse := course_of_run tk input
  rw [herror] at hcourse
  exact walk_of_course hcourse hclear

/-- A walk is a course to the end of the input. -/
theorem Walk.course {position : Nat} {steps : List Step} (h : Walk tk input position steps) :
    Course tk input position steps none := by
  induction h with
  | done => exact .done
  | step hlt hbest _ _ ih => exact .step hlt hbest ih

theorem Walk.eq_length {position : Nat} (h : Walk tk input position []) :
    position = input.length := by
  cases h
  rfl

theorem kept_of_isSome {hit : Hit} {position : Nat} {rest : Text}
    (h : (stepOf position rest hit).token.isSome = true) : hit.candidate.ignored = false := by
  cases hignored : hit.candidate.ignored with
  | true =>
    rw [token_of_ignored hignored] at h
    cases h
  | false => rfl

/-- The last step, if there is one, is not dropped. -/
def EndsInToken (steps : List Step) : Prop :=
  ∀ step, steps.getLast? = some step → step.token.isSome = true

/-- The last token of a walk whose last step is not dropped ends where the input ends. -/
theorem Walk.last_stop {position : Nat} {steps : List Step} (h : Walk tk input position steps)
    (hend : EndsInToken steps) (hne : steps ≠ []) :
    ∃ token, (steps.filterMap Step.token).getLast? = some token ∧
      token.span.stop = input.length := by
  induction h with
  | done => exact absurd rfl hne
  | @step position hit steps hlt hbest hclear rest ih =>
    cases hsteps : steps with
    | nil =>
      subst hsteps
      have hstop := rest.eq_length
      have hlast := hend _ (List.getLast?_singleton ..)
      have hkept := kept_of_isSome hlast
      refine ⟨tokenOf position (input.drop position) hit, ?_, by simp only [tokenOf, hstop]⟩
      rw [List.filterMap_cons_some (token_of_kept hkept _ _)]
      rfl
    | cons step others =>
      rw [← hsteps]
      have hnonempty : steps ≠ [] := by simp [hsteps]
      have hend' : EndsInToken steps := by
        intro last hlast
        refine hend last ?_
        rw [List.getLast?_cons, hlast]
        rfl
      obtain ⟨token, htoken, hstop⟩ := ih hend' hnonempty
      refine ⟨token, ?_, hstop⟩
      rw [List.filterMap_cons]
      split
      · exact htoken
      · rw [List.getLast?_cons, htoken]
        rfl

def Rests (steps : List Step) : Prop :=
  ∀ step, steps.head? = some step → step.token.isSome = true

/-- An offset where the tokens from an index on are still to come, and no white space before
them. -/
def Aligned (tk : Tokenizer) (input : Text) (tokens : List Token) (offset index : Nat) : Prop :=
  index ≤ tokens.length ∧ ∃ steps, Walk tk input offset steps ∧ Rests steps ∧
    steps.filterMap Step.token = tokens.drop index

namespace Aligned

variable {tokens : List Token} {offset index : Nat}

/-- An aligned offset is the end of the input or the start of a token. -/
theorem cases (h : Aligned tk input tokens offset index) :
    (offset = input.length ∧ index = tokens.length ∧ tk.Unrivalled offset []) ∨
      ∃ hit steps, offset < input.length ∧ tk.best offset (input.drop offset) = some hit ∧
        tk.Unrivalled offset (input.drop offset) ∧ hit.candidate.ignored = false ∧
        tokens[index]? = some (tokenOf offset (input.drop offset) hit) ∧
        Walk tk input hit.stop steps ∧ steps.filterMap Step.token = tokens.drop (index + 1) := by
  obtain ⟨hle, steps, hwalk, hrests, htokens⟩ := h
  cases hwalk with
  | done hclear =>
    have hend : tokens.length ≤ index := List.drop_eq_nil_iff.mp htokens.symm
    exact Or.inl ⟨rfl, by omega, hclear⟩
  | @step _ hit steps hlt hbest hclear rest =>
    have hkept := kept_of_isSome (hrests _ rfl)
    rw [List.filterMap_cons_some (token_of_kept hkept _ _)] at htokens
    refine Or.inr ⟨hit, steps, hlt, hbest, hclear, hkept, ?_, rest, ?_⟩
    · rw [← List.head?_drop, ← htokens]
      rfl
    · rw [← List.tail_drop, ← htokens]
      rfl

theorem inside_iff (h : Aligned tk input tokens offset index) :
    offset < input.length ↔ index < tokens.length := by
  rcases h.cases with ⟨hoffset, hindex, -⟩ | ⟨hit, steps, hlt, -, -, -, hget, -⟩
  · omega
  · have hindex := (List.getElem?_eq_some_iff.mp hget).1
    omega

variable {steps : List Step}

/-- An offset and an index that are aligned stand at the same position. -/
theorem position_eq (hwalk : Walk tk input 0 steps)
    (hend : EndsInToken steps)
    (h : Aligned tk input (steps.filterMap Step.token) offset index) :
    (Input.text input).position offset =
      (Input.tokens (steps.filterMap Step.token).toArray).position index := by
  simp only [Input.position, List.getElem?_toArray, List.back?_toArray]
  rcases h.cases with ⟨rfl, rfl, -⟩ | ⟨hit, others, -, -, -, -, hget, -⟩
  · rw [List.getElem?_eq_none (Nat.le_refl _)]
    by_cases hne : steps = []
    · subst hne
      rw [← hwalk.eq_length]
      rfl
    · obtain ⟨token, htoken, hstop⟩ := hwalk.last_stop hend hne
      rw [htoken]
      simp only [Option.map_some, Option.getD_some, hstop]
  · rw [hget]
    rfl

theorem lt_of_lt (hwalk : Walk tk input 0 steps)
    (h : Aligned tk input (steps.filterMap Step.token) offset index) {offset' index' : Nat}
    (h' : Aligned tk input (steps.filterMap Step.token) offset' index') (hlt : index < index') :
    offset < offset' := by
  have hordered := hwalk.course.ordered
  have hinside := h.inside_iff
  rcases h'.cases with ⟨hoffset', -, -⟩ | ⟨hit', others', -, -, -, -, hget', -⟩
  · have hle := h'.1
    omega
  · rcases h.cases with ⟨-, hindex, -⟩ | ⟨hit, others, -, -, -, -, hget, -⟩
    · have hle := h'.1
      omega
    · obtain ⟨hindex, htoken⟩ := List.getElem?_eq_some_iff.mp hget
      obtain ⟨hindex', htoken'⟩ := List.getElem?_eq_some_iff.mp hget'
      have hbefore := List.pairwise_iff_getElem.mp hordered.pairwise index index' hindex hindex' hlt
      have hless := hordered.lt_stop _ (List.getElem_mem hindex)
      rw [htoken] at hbefore hless
      rw [htoken'] at hbefore
      simp only [tokenOf] at hbefore hless
      omega

theorem lt_iff (hwalk : Walk tk input 0 steps)
    (hend : EndsInToken steps)
    (h : Aligned tk input (steps.filterMap Step.token) offset index) {offset' index' : Nat}
    (h' : Aligned tk input (steps.filterMap Step.token) offset' index') :
    offset < offset' ↔ index < index' := by
  refine ⟨fun hlt => ?_, h.lt_of_lt hwalk h'⟩
  rcases Nat.lt_trichotomy index index' with hindex | rfl | hindex
  · exact hindex
  · have hposition := (h.position_eq hwalk hend).trans (h'.position_eq hwalk hend).symm
    simp only [Input.position] at hposition
    omega
  · have hgreater := h'.lt_of_lt hwalk h hindex
    omega

end Aligned

end GrammarKit.Tokenizer
