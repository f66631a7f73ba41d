import GrammarKit.Proofs.Automaton.LongestMatch
import GrammarKit.Tokenizer

/-!
The course of a tokenizer over an input. At each position the winner is the first of the candidates
with the longest match, and the course goes on where that match ends, up to the end of the input or
to a place where nothing wins. The tokens on the way stand in order, and each of them is the stretch
of the input at its span.
-/
namespace GrammarKit

namespace Text

theorem slice_natCast (t : Text) (start stop : Nat) :
    t.slice start stop = (t.drop start).take (stop - start) := by
  have hplace : ∀ i : Nat, t.place i = i := by
    intro i
    have hnonneg : ¬ (i : Int) < 0 := by omega
    rw [place, if_neg hnonneg, Int.toNat_natCast]
  rw [slice, hplace, hplace, List.drop_take]

end Text

/-- A match ends inside of the text. -/
theorem Automaton.longestAt_bounds {a : Automaton} {offset stop : Nat} {t : Text}
    (h : a.longestAt offset t = some stop) : offset ≤ stop ∧ stop ≤ offset + t.length := by
  rcases a.longestAt_cases offset t with ⟨n, hn, hrun⟩ | ⟨-, hrun⟩
  · rw [h] at hrun
    cases hrun
    obtain ⟨w, hread, -⟩ := hn.1
    have hlength := hread.le_length
    omega
  · rw [h] at hrun
    cases hrun

structure Token.StandsIn (t : Text) (token : Token) : Prop where
  start_nonneg : 0 ≤ token.span.start
  start_le_stop : token.span.start ≤ token.span.stop
  stop_le_length : token.span.stop ≤ t.length
  text_eq : token.text = t.slice token.span.start token.span.stop

/-- The token of a name from one offset up to another. -/
theorem Token.standsIn_take {t name : Text} {start stop : Nat} (hle : start ≤ stop)
    (hlength : stop ≤ t.length) :
    Token.StandsIn t ⟨name, (t.drop start).take (stop - start), ⟨start, stop⟩⟩ where
  start_nonneg := Int.natCast_nonneg start
  start_le_stop := Int.ofNat_le.mpr hle
  stop_le_length := Int.ofNat_le.mpr hlength
  text_eq := (t.slice_natCast start stop).symm

namespace Tokenizer

/-- A hit is that of the first among the candidates with the longest match. -/
structure Wins (position : Nat) (rest : Text) (candidates : List Candidate) (hit : Hit) : Prop where
  longest : hit.candidate.automaton.longestAt position rest = some hit.stop
  lt_stop : position < hit.stop
  first : ∃ before after, candidates = before ++ hit.candidate :: after ∧
    (∀ c ∈ before, ∀ stop, c.automaton.longestAt position rest = some stop → stop < hit.stop) ∧
    ∀ c ∈ after, ∀ stop, c.automaton.longestAt position rest = some stop → stop ≤ hit.stop

def Stuck (position : Nat) (rest : Text) (candidates : List Candidate) : Prop :=
  ∀ c ∈ candidates, ∀ stop, c.automaton.longestAt position rest = some stop → stop ≤ position

section Candidates

variable {position : Nat} {rest : Text} {candidates : List Candidate} {hit : Hit} {c : Candidate}

theorem Wins.mem (h : Wins position rest candidates hit) : hit.candidate ∈ candidates := by
  obtain ⟨before, after, hsplit, -⟩ := h.first
  rw [hsplit]
  exact List.mem_append_right _ List.mem_cons_self

/-- No match is longer than that of the winner. -/
theorem Wins.stop_le (h : Wins position rest candidates hit) (hc : c ∈ candidates) {stop : Nat}
    (hstop : c.automaton.longestAt position rest = some stop) : stop ≤ hit.stop := by
  obtain ⟨before, after, hsplit, hbefore, hafter⟩ := h.first
  rw [hsplit] at hc
  rcases List.mem_append.mp hc with hc | hc
  · exact Nat.le_of_lt (hbefore c hc stop hstop)
  · rcases List.mem_cons.mp hc with rfl | hc
    · rw [h.longest] at hstop
      cases hstop
      exact Nat.le_refl _
    · exact hafter c hc stop hstop

/-- A candidate that does not do better comes after the winner without a change. -/
theorem Wins.keep (h : Wins position rest candidates hit)
    (hc : ∀ stop, c.automaton.longestAt position rest = some stop → stop ≤ hit.stop) :
    Wins position rest (candidates ++ [c]) hit := by
  obtain ⟨before, after, hsplit, hbefore, hafter⟩ := h.first
  refine ⟨h.longest, h.lt_stop, before, after ++ [c], by rw [hsplit]; simp, hbefore, ?_⟩
  intro d hd
  rcases List.mem_append.mp hd with hd | hd
  · exact hafter d hd
  · rw [List.mem_singleton.mp hd]
    exact hc

/-- A candidate that does better than all before it wins. -/
theorem wins_last {stop : Nat} (hstop : c.automaton.longestAt position rest = some stop)
    (hlt : position < stop)
    (hbefore : ∀ d ∈ candidates, ∀ other, d.automaton.longestAt position rest = some other →
      other < stop) : Wins position rest (candidates ++ [c]) ⟨c, stop⟩ :=
  ⟨hstop, hlt, candidates, [], rfl, hbefore, by simp⟩

/-- Trying the candidates one after the other finds the winner, if there is one. -/
theorem foldl_improve_cases (position : Nat) (rest : Text) (candidates : List Candidate) :
    (candidates.foldl (improve position rest) none = none ∧ Stuck position rest candidates) ∨
      ∃ hit, candidates.foldl (improve position rest) none = some hit ∧
        Wins position rest candidates hit := by
  induction candidates using List.reverseRecOn with
  | nil => exact Or.inl ⟨rfl, by simp [Stuck]⟩
  | append_singleton candidates c ih =>
    rw [List.foldl_append, List.foldl_cons, List.foldl_nil]
    cases hc : c.automaton.longestAt position rest with
    | none =>
      have hkeep : ∀ best, improve position rest best c = best := by simp [improve, hc]
      rcases ih with ⟨hnone, hstuck⟩ | ⟨hit, hsome, hwins⟩
      · refine Or.inl ⟨by rw [hkeep, hnone], ?_⟩
        intro d hd
        rcases List.mem_append.mp hd with hd | hd
        · exact hstuck d hd
        · rw [List.mem_singleton.mp hd, hc]
          nofun
      · exact Or.inr ⟨hit, by rw [hkeep, hsome], hwins.keep (by simp [hc])⟩
    | some stop =>
      rcases ih with ⟨hnone, hstuck⟩ | ⟨hit, hsome, hwins⟩
      · rw [hnone]
        by_cases hlt : position < stop
        · refine Or.inr ⟨⟨c, stop⟩, by simp [improve, hc, hlt], wins_last hc hlt ?_⟩
          intro d hd other hother
          have hle := hstuck d hd other hother
          omega
        · refine Or.inl ⟨by simp [improve, hc, hlt], ?_⟩
          intro d hd other hother
          rcases List.mem_append.mp hd with hd | hd
          · exact hstuck d hd other hother
          · rw [List.mem_singleton.mp hd, hc] at hother
            cases hother
            omega
      · rw [hsome]
        by_cases hbetter : hit.stop < stop
        · have hlt : position < stop := Nat.lt_trans hwins.lt_stop hbetter
          refine Or.inr ⟨⟨c, stop⟩, by simp [improve, hc, hlt, hbetter], wins_last hc hlt ?_⟩
          intro d hd other hother
          exact Nat.lt_of_le_of_lt (hwins.stop_le hd hother) hbetter
        · refine Or.inr ⟨hit, by simp [improve, hc, hbetter], hwins.keep ?_⟩
          intro other hother
          rw [hc] at hother
          cases hother
          omega

end Candidates

variable {tk : Tokenizer} {input : Text}

theorem best_cases (tk : Tokenizer) (position : Nat) (rest : Text) :
    (tk.best position rest = none ∧ Stuck position rest tk.candidates) ∨
      ∃ hit, tk.best position rest = some hit ∧ Wins position rest tk.candidates hit :=
  foldl_improve_cases position rest tk.candidates

theorem wins_of_best {position : Nat} {rest : Text} {hit : Hit}
    (h : tk.best position rest = some hit) : Wins position rest tk.candidates hit := by
  rcases tk.best_cases position rest with ⟨hnone, -⟩ | ⟨hit', hsome, hwins⟩
  · rw [h] at hnone
    cases hnone
  · rw [h] at hsome
    cases hsome
    exact hwins

theorem stuck_of_best {position : Nat} {rest : Text} (h : tk.best position rest = none) :
    Stuck position rest tk.candidates := by
  rcases tk.best_cases position rest with ⟨-, hstuck⟩ | ⟨hit, hsome, -⟩
  · exact hstuck
  · rw [h] at hsome
    cases hsome

/-- The winner is a candidate, and its match takes something. -/
theorem best_eq_some {position : Nat} {rest : Text} {hit : Hit}
    (h : tk.best position rest = some hit) : hit.candidate ∈ tk.candidates ∧ position < hit.stop ∧
      hit.candidate.automaton.longestAt position rest = some hit.stop :=
  have hwins := wins_of_best h
  ⟨hwins.mem, hwins.lt_stop, hwins.longest⟩

/-- The winner takes something, and not more than there is. -/
theorem best_bounds {position : Nat} {hit : Hit} (hle : position ≤ input.length)
    (h : tk.best position (input.drop position) = some hit) :
    position < hit.stop ∧ hit.stop ≤ input.length := by
  obtain ⟨-, hlt, hmatch⟩ := best_eq_some h
  have hbounds := Automaton.longestAt_bounds hmatch
  rw [List.length_drop] at hbounds
  exact ⟨hlt, by omega⟩

def tokenOf (position : Nat) (rest : Text) (hit : Hit) : Token :=
  ⟨hit.candidate.name, rest.take (hit.stop - position), ⟨position, hit.stop⟩⟩

theorem token_of_ignored {hit : Hit} (h : hit.candidate.ignored = true) (position : Nat)
    (rest : Text) : (stepOf position rest hit).token = none := if_pos h

theorem token_of_kept {hit : Hit} (h : hit.candidate.ignored = false) (position : Nat)
    (rest : Text) : (stepOf position rest hit).token = some (tokenOf position rest hit) :=
  if_neg (by simp [h])

/-- Inside of the input the step at a position is that of the winner. -/
theorem next_eq {position : Nat} (hlt : position < input.length) :
    tk.next input position =
      match tk.best position (input.drop position) with
      | none => .error (tk.refuse input position)
      | some hit => .ok (some (stepOf position (input.drop position) hit)) := by
  have hinside : ¬ (input.length : Int) ≤ (position : Int) := by omega
  cases hbest : tk.best position (input.drop position) with
  | none => simp only [next, if_neg hinside, Int.toNat_natCast, Text.ahead_natCast, hbest]
  | some hit => simp only [next, if_neg hinside, Int.toNat_natCast, Text.ahead_natCast, hbest]

theorem next_length : tk.next input input.length = .ok none := if_pos (Int.le_refl _)

/-- The steps of a tokenizer from a position on, and the error that ends them if they do not come to
the end of the input. -/
inductive Course (tk : Tokenizer) (input : Text) : Nat → List Step → Option LexError → Prop where
  | done : Course tk input input.length [] none
  | stuck {position : Nat} (hlt : position < input.length)
      (hnone : tk.best position (input.drop position) = none) :
      Course tk input position [] (some (tk.refuse input position))
  | step {position : Nat} {hit : Hit} {steps : List Step} {error : Option LexError}
      (hlt : position < input.length)
      (hbest : tk.best position (input.drop position) = some hit)
      (rest : Course tk input hit.stop steps error) :
      Course tk input position (stepOf position (input.drop position) hit :: steps) error

theorem course_of_runFrom (position : Nat) (rest : Text) (done : List Step)
    (hrest : input.drop position = rest) (hle : position ≤ input.length) :
    ∃ steps, (tk.runFrom input position rest done).steps = done.reverse ++ steps ∧
      Course tk input position steps (tk.runFrom input position rest done).error := by
  fun_induction runFrom tk input position rest done with
  | case1 position rest done hempty =>
    have hnil : rest = [] := List.isEmpty_iff.mp hempty
    have hend : input.length ≤ position := List.drop_eq_nil_iff.mp (hrest.trans hnil)
    obtain rfl : position = input.length := by omega
    exact ⟨[], by simp, .done⟩
  | case2 position rest done hempty hnone =>
    subst hrest
    have hlt : position < input.length := by simpa using hempty
    exact ⟨[], by simp, .stuck hlt hnone⟩
  | case3 position rest done hempty hit hbest ih =>
    subst hrest
    have hlt : position < input.length := by simpa using hempty
    have hbounds := best_bounds hle hbest
    have hdrop : input.drop hit.stop = (input.drop position).drop (hit.stop - position) := by
      rw [List.drop_drop]
      congr 1
      omega
    obtain ⟨steps, hsteps, hcourse⟩ := ih hdrop hbounds.2
    refine ⟨stepOf position (input.drop position) hit :: steps, ?_, .step hlt hbest hcourse⟩
    rw [hsteps]
    simp

/-- Tokenizing an input is a course from its start. -/
theorem course_of_run (tk : Tokenizer) (input : Text) :
    Course tk input 0 (tk.run input).steps (tk.run input).error := by
  obtain ⟨steps, hsteps, hcourse⟩ := @course_of_runFrom tk input 0 input [] rfl (Nat.zero_le _)
  have heq : (tk.run input).steps = steps := hsteps
  rw [heq]
  exact hcourse

structure Ordered (input : Text) (position : Nat) (tokens : List Token) : Prop where
  from_le : ∀ token ∈ tokens, (position : Int) ≤ token.span.start
  lt_stop : ∀ token ∈ tokens, token.span.start < token.span.stop
  pairwise : tokens.Pairwise fun a b => a.span.stop ≤ b.span.start
  standsIn : ∀ token ∈ tokens, token.StandsIn input

/-- Tokens come one after the other, each of them takes something, and none starts before the
course does. -/
theorem Course.ordered {position : Nat} {steps : List Step} {error : Option LexError}
    (h : Course tk input position steps error) :
    Ordered input position (steps.filterMap Step.token) := by
  induction h with
  | done | stuck => exact ⟨by simp, by simp, by simp, by simp⟩
  | @step position hit steps error hlt hbest _ ih =>
    have hbounds := best_bounds (Nat.le_of_lt hlt) hbest
    have hlater : ∀ token ∈ steps.filterMap Step.token, (position : Int) ≤ token.span.start := by
      intro token htoken
      have hfrom := ih.from_le token htoken
      omega
    cases hignored : hit.candidate.ignored with
    | true =>
      rw [List.filterMap_cons_none (token_of_ignored hignored _ _)]
      exact { ih with from_le := hlater }
    | false =>
      rw [List.filterMap_cons_some (token_of_kept hignored _ _)]
      have hstands : Token.StandsIn input (tokenOf position (input.drop position) hit) :=
        Token.standsIn_take (Nat.le_of_lt hbounds.1) hbounds.2
      constructor
      · intro token htoken
        rcases List.mem_cons.mp htoken with rfl | htoken
        · exact Int.le_refl _
        · exact hlater token htoken
      · intro token htoken
        rcases List.mem_cons.mp htoken with rfl | htoken
        · exact Int.ofNat_lt.mpr hbounds.1
        · exact ih.lt_stop token htoken
      · exact List.pairwise_cons.mpr ⟨fun token htoken => ih.from_le token htoken, ih.pairwise⟩
      · intro token htoken
        rcases List.mem_cons.mp htoken with rfl | htoken
        · exact hstands
        · exact ih.standsIn token htoken

/-- An input that is tokenized has been gone through to its end. -/
theorem course_of_tokenize {tokens : List Token} (h : tk.tokenize input = .ok tokens) :
    Course tk input 0 (tk.run input).steps none ∧
      tokens = (tk.run input).steps.filterMap Step.token := by
  have hcourse := course_of_run tk input
  unfold tokenize Run.result at h
  split at h
  · cases h
  · next herror =>
    cases h
    rw [herror] at hcourse
    exact ⟨hcourse, rfl⟩

end Tokenizer

end GrammarKit
