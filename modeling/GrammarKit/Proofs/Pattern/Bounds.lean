import GrammarKit.Proofs.Pattern.Charset
import GrammarKit.Proofs.Source.Bounds

/-!
Places in a pattern. An error of a pattern is at all of it, at one of its characters or at an escape
sequence, and the width of a sequence that is none may reach up to the closing mark. Main statement:
where the pattern lies in the source, so do its errors.
-/
namespace GrammarKit

/-- What is not a sequence is not longer than the text. -/
theorem Escape.width_le_of_decode {rest : Text} {width : Nat} (h : decode rest = .invalid width) :
    width ≤ rest.length + 1 := by
  unfold decode at h
  split at h
  · cases h
    exact Nat.le_refl _
  · next u r =>
    have htake : ∀ n, (r.take n).length ≤ r.length := fun n => by
      rw [List.length_take]
      omega
    rw [List.length_cons]
    split at h
    · cases h
    · cases h
      omega
    · next n _ _ =>
      have hn := htake n
      simp only at h
      split at h
      · next hdigits =>
        rw [Bool.and_eq_true, decide_eq_true_eq] at hdigits
        split at h
        · cases h
        · cases h
          omega
      · cases h
        omega

namespace Pattern

section Characters

variable {p : Pattern} {offset stop : Nat}

/-- A character starts before the end of what is read. -/
theorem offset_lt_of_charactersFrom (hstop : stop ≤ p.text.length) {cs : List Character}
    (h : p.charactersFrom stop offset = .ok cs) : ∀ c ∈ cs, c.offset < stop := by
  induction cs generalizing offset with
  | nil => nofun
  | cons c cs ih =>
    by_cases hlt : offset < stop
    · obtain ⟨c', width, rest, -, hoffset, -, hrest, hcs⟩ := exists_of_charactersFrom hlt hstop h
      cases hcs
      exact List.forall_mem_cons.mpr ⟨by omega, ih hrest⟩
    · rw [charactersFrom_of_le (Nat.le_of_not_lt hlt)] at h
      cases h

end Characters

section Errors

variable {length : Nat} {p : Pattern} (hwithin : p.span.Within length)
  (hsized : p.span.stop = p.span.start + p.text.length)
include hwithin hsized

theorem span_within {first last : Nat} (hle : first ≤ last) (hlast : last ≤ p.text.length) :
    Span.Within length ⟨p.span.start + first, p.span.start + last⟩ := by
  have hnonneg := hwithin.nonneg
  have hbounded := hwithin.bounded
  constructor <;> simp only <;> omega

theorem characterAt_failsWithin {offset : Nat} (hlt : offset < p.text.length) :
    FailsWithin length (p.characterAt offset) := by
  have hdrop : p.text.drop offset = p.text[offset] :: p.text.drop (offset + 1) :=
    List.drop_eq_getElem_cons hlt
  by_cases hsign : p.text[offset] = Escape.sign
  · rw [hsign] at hdrop
    rw [characterAt_sign hdrop]
    split
    · exact .of_ok _
    · next width hdecode =>
      have hwidth := Escape.width_le_of_decode hdecode
      rw [List.length_drop] at hwidth
      refine .of_error ⟨_, rfl, ?_⟩
      have hspan := span_within hwithin hsized (Nat.le_add_right offset width) (by omega)
      rwa [Int.natCast_add, ← Int.add_assoc] at hspan
  · rw [characterAt_unit hdrop hsign]
    exact .of_ok _

theorem charactersFrom_failsWithin {stop offset : Nat} (hstop : stop ≤ p.text.length) :
    FailsWithin length (p.charactersFrom stop offset) := by
  fun_induction charactersFrom p stop offset with
  | case1 offset hlt ih =>
    refine .bind (characterAt_failsWithin hwithin hsized (by omega)) fun found hfound => ?_
    split
    · exact .of_ok _
    · next c width =>
      split
      · next hwidth => exact .bind (ih width hwidth) fun _ _ => .of_ok _
      · exact .of_ok _
  | case2 => exact .of_ok _

theorem body_failsWithin : FailsWithin length p.body :=
  charactersFrom_failsWithin hwithin hsized (Nat.sub_le _ _)

theorem literal_failsWithin : FailsWithin length p.literal := by
  refine .bind (body_failsWithin hwithin hsized) fun characters _ => ?_
  split
  · exact .of_error ⟨_, rfl, hwithin⟩
  · exact .of_ok _

theorem charset_failsWithin : FailsWithin length p.charset := by
  intro e he
  cases hbody : p.body with
  | error e' =>
    rw [charset, hbody] at he
    cases he
    exact body_failsWithin hwithin hsized e hbody
  | ok cs =>
    rcases charset_outcome hbody with ⟨negated, es, hdenotes⟩ | ⟨e', he', hfails⟩
    · rw [charset_of_denotes hbody hdenotes] at he
      cases he
    · cases he.symm.trans he'
      rcases hfails with ⟨-, hspan⟩ | ⟨-, c, hc, hspan⟩
      · exact ⟨_, hspan, hwithin⟩
      · have hlt := offset_lt_of_charactersFrom (Nat.sub_le _ _) hbody c hc
        have hplace := span_within hwithin hsized (Nat.le_succ c.offset) (by omega)
        rw [Int.natCast_succ, ← Int.add_assoc] at hplace
        exact ⟨_, hspan, hplace⟩

theorem escape_failsWithin : FailsWithin length p.escape := by
  refine .bind (charactersFrom_failsWithin hwithin hsized (Nat.le_refl _)) fun characters _ => ?_
  split
  · exact .of_ok _
  · exact .of_error ⟨_, rfl, hwithin⟩

end Errors

end Pattern

end GrammarKit
