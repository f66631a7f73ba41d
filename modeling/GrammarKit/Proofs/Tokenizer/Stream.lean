import GrammarKit.Proofs.Tokenizer.Course

/-!
Tokens that are taken from a stream one at a time. Main statement: the calls of `next` hand out what
tokenizing the input at once gives, the tokens and then the error if there is one, and from then on
they give nothing.
-/
namespace GrammarKit.Tokenizer

variable {tk : Tokenizer} {input : Text}

def handedOut (steps : List Step) (error : Option LexError) : List (Except LexError Token) :=
  (steps.filterMap Step.token).map .ok ++ error.toList.map .error

namespace Stream

/-- What `next` gives when it is called after `n` other calls. -/
def call (tk : Tokenizer) (input : Text) : Nat → Stream → Option (Except LexError Token)
  | 0, s => (s.next tk input).1
  | n + 1, s => call tk input n (s.next tk input).2

variable {s : Stream}

theorem next_of_failed (h : s.failed = true) : s.next tk input = (none, s) := by
  unfold next
  exact dif_pos h

theorem next_of_isEmpty (h : s.rest.isEmpty = true) : s.next tk input = (none, s) := by
  unfold next
  split
  · rfl
  · rfl

section Open

variable (hfailed : ¬ s.failed = true) (hempty : ¬ s.rest.isEmpty = true)

include hfailed hempty

theorem next_of_none (h : tk.best s.position s.rest = none) :
    s.next tk input = (some (.error (tk.refuse input s.position)), s.fail) := by
  rw [next.eq_def, dif_neg hfailed, dif_neg hempty]
  split
  · rfl
  · next hbest =>
    rw [h] at hbest
    cases hbest

theorem next_of_some {hit : Hit} (h : tk.best s.position s.rest = some hit) :
    s.next tk input = (if hit.candidate.ignored then (s.after hit).next tk input
      else (some (.ok (tokenOf s.position s.rest hit)), s.after hit)) := by
  rw [next.eq_def, dif_neg hfailed, dif_neg hempty]
  split
  · next hbest =>
    rw [h] at hbest
    cases hbest
  · next hbest =>
    rw [h] at hbest
    cases hbest
    cases hignored : hit.candidate.ignored with
    | true => simp only [token_of_ignored hignored, if_true]
    | false => simp only [token_of_kept hignored, Bool.false_eq_true, if_false]

end Open

/-- A stream that is at its end stays there. -/
theorem call_eq_none (h : s.next tk input = (none, s)) (n : Nat) : s.call tk input n = none := by
  induction n with
  | zero => rw [call, h]
  | succ n ih => rw [call, h, ih]

theorem call_congr {r : Stream} (h : s.next tk input = r.next tk input) (n : Nat) :
    s.call tk input n = r.call tk input n := by
  cases n with
  | zero => rw [call, call, h]
  | succ n => rw [call, call, h]

def ofPosition (input : Text) (position : Nat) : Stream := ⟨position, input.drop position, false⟩

theorem after_ofPosition {position : Nat} {hit : Hit} (hlt : position < hit.stop) :
    (ofPosition input position).after hit = ofPosition input hit.stop := by
  have hdrop : (input.drop position).drop (hit.stop - position) = input.drop hit.stop := by
    rw [List.drop_drop]
    congr 1
    omega
  simp only [after, ofPosition, hdrop]

/-- The calls of `next` give what a course hands out, one after the other, and then nothing for
good. -/
theorem call_eq {position : Nat} {steps : List Step} {error : Option LexError}
    (h : Course tk input position steps error) (n : Nat) :
    (ofPosition input position).call tk input n = (handedOut steps error)[n]? := by
  induction h generalizing n with
  | done =>
    have hempty : (ofPosition input input.length).rest.isEmpty = true := by simp [ofPosition]
    rw [call_eq_none (next_of_isEmpty hempty)]
    simp [handedOut]
  | @stuck position hlt hnone =>
    have hempty : ¬ (ofPosition input position).rest.isEmpty = true := by
      simpa [ofPosition] using hlt
    have hnext := @next_of_none tk input _ (by simp [ofPosition]) hempty hnone
    cases n with
    | zero =>
      rw [call, hnext]
      rfl
    | succ n =>
      rw [call, hnext, call_eq_none (next_of_failed rfl)]
      simp [handedOut]
  | @step position hit steps error hlt hbest _ ih =>
    have hempty : ¬ (ofPosition input position).rest.isEmpty = true := by
      simpa [ofPosition] using hlt
    have hnext := @next_of_some tk input _ (by simp [ofPosition]) hempty hit hbest
    rw [after_ofPosition (wins_of_best hbest).lt_stop] at hnext
    cases hignored : hit.candidate.ignored with
    | true =>
      rw [hignored, if_pos rfl] at hnext
      rw [call_congr hnext, ih, handedOut, handedOut,
        List.filterMap_cons_none (token_of_ignored hignored _ _)]
    | false =>
      rw [hignored, if_neg (by simp)] at hnext
      rw [handedOut, List.filterMap_cons_some (token_of_kept hignored _ _)]
      cases n with
      | zero =>
        rw [call, hnext]
        rfl
      | succ n =>
        rw [call, hnext, ih]
        rfl

/-- Draining a stream gives what its calls give. -/
theorem drainFrom_eq {items : List (Except LexError Token)} :
    ∀ {s : Stream} (done : List (Except LexError Token)), (∀ n, s.call tk input n = items[n]?) →
      s.drainFrom tk input done = done.reverse ++ items := by
  induction items with
  | nil =>
    intro s done hcalls
    have hfirst : (s.next tk input).1 = none := hcalls 0
    rw [drainFrom.eq_def]
    split
    · rw [List.append_nil]
    · next hnext =>
      rw [hnext] at hfirst
      cases hfirst
  | cons item items ih =>
    intro s done hcalls
    have hfirst : (s.next tk input).1 = some item := hcalls 0
    rw [drainFrom.eq_def]
    split
    · next hnext =>
      rw [hnext] at hfirst
      cases hfirst
    · next item' r hnext =>
      rw [hnext] at hfirst
      cases hfirst
      have hrest : ∀ n, r.call tk input n = items[n]? := by
        intro n
        have hcall := hcalls (n + 1)
        rw [call, hnext] at hcall
        exact hcall
      rw [ih (item :: done) hrest, List.reverse_cons, List.append_assoc]
      rfl

end Stream

/-- The stream of an input is what its course hands out. -/
theorem stream_eq (tk : Tokenizer) (input : Text) :
    tk.stream input = handedOut (tk.run input).steps (tk.run input).error :=
  Stream.drainFrom_eq [] (Stream.call_eq (course_of_run tk input))

end GrammarKit.Tokenizer
