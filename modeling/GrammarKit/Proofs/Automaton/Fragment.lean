import GrammarKit.Proofs.Automaton.Language

/-!
What the builder adds to an automaton. A fragment between two states that are given has a path for
each word of its language, and nothing more: whatever languages are written on the states that were
there before, the new states can be labelled so that no new edge claims a word that its source does
not have. The second part takes the place of an account of which states a fragment may touch. It is
kept by each way in which fragments are put together, although they share their first and last
states.
-/
namespace GrammarKit

open scoped Computability

def Edge.language (e : Edge) : Language CodePoint :=
  match e.matcher with
  | some m => m.language
  | none => 1

namespace Automaton

abbrev Wiring := Array (List Edge)

def leaving (edges : Wiring) (state : Nat) : List Edge := (edges[state]?).getD []

theorem lt_size_of_mem_leaving {edges : Wiring} {q : Nat} {e : Edge} (h : e ∈ leaving edges q) :
    q < edges.size := by
  by_contra hq
  have hnone : edges[q]? = none := Array.getElem?_eq_none (by omega)
  simp [leaving, hnone] at h

theorem leaving_push (edges : Wiring) (q : Nat) : leaving (edges.push []) q = leaving edges q := by
  unfold leaving
  rw [Array.getElem?_push]
  split
  · next h =>
    subst h
    simp
  · rfl

theorem mem_leaving_modify {edges : Wiring} {source q : Nat} {e e' : Edge}
    (hsource : source < edges.size) :
    e' ∈ leaving (edges.modify source (· ++ [e])) q ↔
      e' ∈ leaving edges q ∨ q = source ∧ e' = e := by
  unfold leaving
  rw [Array.getElem?_modify]
  by_cases h : source = q
  · subst h
    simp [Array.getElem?_eq_getElem hsource]
  · have h' : ¬ q = source := fun hq => h hq.symm
    simp [h, h']

def Bounded (edges : Wiring) : Prop := ∀ q, ∀ e ∈ leaving edges q, e.target < edges.size

theorem Bounded.push {edges : Wiring} (h : Bounded edges) : Bounded (edges.push []) := by
  intro q e he
  rw [leaving_push] at he
  have := h q e he
  simp only [Array.size_push]
  omega

theorem Bounded.modify {edges : Wiring} (h : Bounded edges) {source : Nat} {e : Edge}
    (hsource : source < edges.size) (htarget : e.target < edges.size) :
    Bounded (edges.modify source (· ++ [e])) := by
  intro q e' he'
  rw [Array.size_modify]
  rcases (mem_leaving_modify hsource).mp he' with he' | ⟨-, rfl⟩
  · exact h q e' he'
  · exact htarget

inductive Path (edges : Wiring) : Nat → List CodePoint → Nat → Prop where
  | nil (q : Nat) : Path edges q [] q
  | cons {q q' : Nat} {e : Edge} {u v : List CodePoint} (he : e ∈ leaving edges q)
      (hu : u ∈ e.language) (rest : Path edges e.target v q') : Path edges q (u ++ v) q'

namespace Path

variable {edges edges' : Wiring}

theorem append {p q r : Nat} {u v : List CodePoint} (h : Path edges p u q)
    (h' : Path edges q v r) : Path edges p (u ++ v) r := by
  induction h with
  | nil => exact h'
  | cons he hu _ ih =>
    rw [List.append_assoc]
    exact .cons he hu (ih h')

theorem mono (hsub : ∀ q, leaving edges q ⊆ leaving edges' q) {p q : Nat} {w : List CodePoint}
    (h : Path edges p w q) : Path edges' p w q := by
  induction h with
  | nil => exact .nil _
  | cons he hu _ ih => exact .cons (hsub _ he) hu ih

theorem edge {q : Nat} {e : Edge} (he : e ∈ leaving edges q) {w : List CodePoint}
    (hw : w ∈ e.language) : Path edges q w e.target := by
  have h : Path edges q (w ++ []) e.target := .cons he hw (.nil _)
  rwa [List.append_nil] at h

theorem silent {q target : Nat} (he : ⟨none, target⟩ ∈ leaving edges q) :
    Path edges q [] target := edge he (Language.mem_one _ |>.mpr rfl)

end Path

/-- A labelling that no edge contradicts: what an edge reads, and after it a word of its target, is
a word of its source. -/
def Respects (label : Nat → Language CodePoint) (edges : Wiring) : Prop :=
  ∀ q, ∀ e ∈ leaving edges q, e.language * label e.target ≤ label q

namespace Respects

variable {edges : Wiring} {label : Nat → Language CodePoint}

/-- Along a path no word is claimed that the first state does not have. -/
theorem append_mem (h : Respects label edges) {p q : Nat} {w v : List CodePoint}
    (hpath : Path edges p w q) (hv : v ∈ label q) : w ++ v ∈ label p := by
  induction hpath with
  | nil => exact hv
  | cons he hu _ ih =>
    rw [List.append_assoc]
    exact h _ _ he (Language.append_mem_mul hu (ih hv))

theorem push (h : Respects label edges) (hb : Bounded edges) (l : Language CodePoint) :
    Respects (Function.update label edges.size l) (edges.push []) := by
  intro q e he
  rw [leaving_push] at he
  have hq : q ≠ edges.size := Nat.ne_of_lt (lt_size_of_mem_leaving he)
  have ht : e.target ≠ edges.size := Nat.ne_of_lt (hb q e he)
  rw [Function.update_of_ne hq, Function.update_of_ne ht]
  exact h q e he

theorem modify (h : Respects label edges) {source : Nat} {e : Edge} (hsource : source < edges.size)
    (he : e.language * label e.target ≤ label source) :
    Respects label (edges.modify source (· ++ [e])) := by
  intro q e' he'
  rcases (mem_leaving_modify hsource).mp he' with he' | ⟨rfl, rfl⟩
  · exact h q e' he'
  · exact he

end Respects

/-- Between two states a fragment of a language has been added. -/
structure Connects (edges edges' : Wiring) (source target : Nat) (l : Language CodePoint) :
    Prop where
  size_le : edges.size ≤ edges'.size
  leaving_subset : ∀ q, leaving edges q ⊆ leaving edges' q
  bounded : Bounded edges'
  path : ∀ w ∈ l, Path edges' source w target
  label : ∀ label, Respects label edges → l * label target ≤ label source →
    ∃ label', (∀ q < edges.size, label' q = label q) ∧ Respects label' edges'

namespace Connects

variable {edges edges₁ edges₂ : Wiring} {source target : Nat} {l l₁ l₂ : Language CodePoint}

/-- A fragment that is one edge. -/
theorem edge (hb : Bounded edges) {e : Edge} (hsource : source < edges.size)
    (htarget : e.target < edges.size) :
    Connects edges (edges.modify source (· ++ [e])) source e.target e.language where
  size_le := by simp
  leaving_subset := fun q e' he' => (mem_leaving_modify hsource).mpr (Or.inl he')
  bounded := hb.modify hsource htarget
  path := fun w hw => .edge ((mem_leaving_modify hsource).mpr (Or.inr ⟨rfl, rfl⟩)) hw
  label := fun label hr hle => ⟨label, fun _ _ => rfl, hr.modify hsource hle⟩

/-- Nothing at all is a fragment of the empty language. -/
theorem nothing (hb : Bounded edges) : Connects edges edges source target 0 where
  size_le := Nat.le_refl _
  leaving_subset := fun _ _ he => he
  bounded := hb
  path := fun w hw => (Language.notMem_zero w hw).elim
  label := fun label hr _ => ⟨label, fun _ _ => rfl, hr⟩

/-- Two fragments beside each other. -/
theorem union (h₁ : Connects edges edges₁ source target l₁)
    (h₂ : Connects edges₁ edges₂ source target l₂) (hsource : source < edges.size)
    (htarget : target < edges.size) : Connects edges edges₂ source target (l₁ + l₂) where
  size_le := h₁.size_le.trans h₂.size_le
  leaving_subset := fun q e he => h₂.leaving_subset q (h₁.leaving_subset q he)
  bounded := h₂.bounded
  path := by
    intro w hw
    rcases hw with hw | hw
    · exact (h₁.path w hw).mono h₂.leaving_subset
    · exact h₂.path w hw
  label := by
    intro label hr hle
    rw [add_mul] at hle
    obtain ⟨label₁, hsame₁, hr₁⟩ := h₁.label label hr ((le_add_right le_rfl).trans hle)
    have hle₂ : l₂ * label₁ target ≤ label₁ source := by
      rw [hsame₁ target htarget, hsame₁ source hsource]
      exact (le_add_left le_rfl).trans hle
    obtain ⟨label₂, hsame₂, hr₂⟩ := h₂.label label₁ hr₁ hle₂
    refine ⟨label₂, fun q hq => ?_, hr₂⟩
    rw [hsame₂ q (hq.trans_le h₁.size_le), hsame₁ q hq]

/-- Two fragments one after the other, with a new state between them. The new state gets all words
that lead on from it. -/
theorem sequence (hb : Bounded edges)
    (h₁ : Connects (edges.push []) edges₁ source edges.size l₁)
    (h₂ : Connects edges₁ edges₂ edges.size target l₂) (hsource : source < edges.size)
    (htarget : target < edges.size) : Connects edges edges₂ source target (l₁ * l₂) where
  size_le := by
    have h := h₁.size_le
    have h' := h₂.size_le
    simp only [Array.size_push] at h
    omega
  leaving_subset := by
    intro q e he
    apply h₂.leaving_subset q
    apply h₁.leaving_subset q
    rwa [leaving_push]
  bounded := h₂.bounded
  path := by
    intro w hw
    obtain ⟨u, hu, v, hv, rfl⟩ := Language.mem_mul.mp hw
    exact ((h₁.path u hu).mono h₂.leaving_subset).append (h₂.path v hv)
  label := by
    intro label hr hle
    let labelNew := Function.update label edges.size (l₂ * label target)
    have hold : ∀ q < edges.size, labelNew q = label q := fun q hq =>
      Function.update_of_ne (Nat.ne_of_lt hq) _ _
    have hnew : labelNew edges.size = l₂ * label target := Function.update_self ..
    have hle₁ : l₁ * labelNew edges.size ≤ labelNew source := by
      rw [hnew, hold source hsource, ← mul_assoc]
      exact hle
    obtain ⟨label₁, hsame₁, hr₁⟩ := h₁.label labelNew (hr.push hb _) hle₁
    simp only [Array.size_push] at hsame₁
    have hle₂ : l₂ * label₁ target ≤ label₁ edges.size := by
      rw [hsame₁ target (by omega), hsame₁ edges.size (by omega), hold target htarget, hnew]
    obtain ⟨label₂, hsame₂, hr₂⟩ := h₂.label label₁ hr₁ hle₂
    refine ⟨label₂, fun q hq => ?_, hr₂⟩
    have hsize := h₁.size_le
    simp only [Array.size_push] at hsize
    rw [hsame₂ q (by omega), hsame₁ q (by omega), hold q hq]

def loopStart (edges : Wiring) (source : Nat) : Wiring :=
  ((edges.push []).push []).modify source (· ++ [⟨none, edges.size⟩])

def loopEnd (edges : Wiring) (first last target : Nat) : Wiring :=
  (edges.modify last (· ++ [⟨none, first⟩])).modify last (· ++ [⟨none, target⟩])

section Loop

/- In this section a fragment of `l` has been built between the two states of a loop. -/
variable (hb : Bounded edges) (hsource : source < edges.size) (htarget : target < edges.size)
  (h : Connects (loopStart edges source) edges₁ edges.size (edges.size + 1) l)

include hsource in
theorem mem_leaving_loopStart {q : Nat} {e : Edge} :
    e ∈ leaving (loopStart edges source) q ↔
      e ∈ leaving edges q ∨ q = source ∧ e = ⟨none, edges.size⟩ := by
  have hlt : source < ((edges.push []).push []).size := by
    simp only [Array.size_push]
    omega
  rw [loopStart, mem_leaving_modify hlt, leaving_push, leaving_push]

include h in
theorem loop_size_le : edges.size + 2 ≤ edges₁.size := by
  have hsize := h.size_le
  simp only [loopStart, Array.size_modify, Array.size_push] at hsize
  exact hsize

include h in
theorem mem_leaving_loopEnd {q : Nat} {e : Edge} :
    e ∈ leaving (loopEnd edges₁ edges.size (edges.size + 1) target) q ↔
      (e ∈ leaving edges₁ q ∨ q = edges.size + 1 ∧ e = ⟨none, edges.size⟩) ∨
        q = edges.size + 1 ∧ e = ⟨none, target⟩ := by
  have hsize := loop_size_le h
  have hlast : edges.size + 1 < edges₁.size := by omega
  have hlast' : edges.size + 1 <
      (edges₁.modify (edges.size + 1) (· ++ [⟨none, edges.size⟩])).size := by
    simpa using hlast
  rw [loopEnd, mem_leaving_modify hlast', mem_leaving_modify hlast]

include hsource h in
theorem loop_leaving_subset (q : Nat) :
    leaving edges q ⊆ leaving (loopEnd edges₁ edges.size (edges.size + 1) target) q := by
  intro e he
  rw [mem_leaving_loopEnd h]
  exact Or.inl (Or.inl (h.leaving_subset q ((mem_leaving_loopStart hsource).mpr (Or.inl he))))

include htarget h in
theorem loop_bounded : Bounded (loopEnd edges₁ edges.size (edges.size + 1) target) := by
  have hsize := loop_size_le h
  apply Bounded.modify
  · exact h.bounded.modify (by omega) (by simp only; omega)
  · simp only [Array.size_modify]
    omega
  · simp only [Array.size_modify]
    omega

include h in
/-- Inside of a loop the part can be taken. -/
theorem loop_path_part {w : List CodePoint} (hw : w ∈ l) :
    Path (loopEnd edges₁ edges.size (edges.size + 1) target) edges.size w (edges.size + 1) := by
  apply (h.path w hw).mono
  intro q e he
  rw [mem_leaving_loopEnd h]
  exact Or.inl (Or.inl he)

include hsource h in
theorem loop_path_enter :
    Path (loopEnd edges₁ edges.size (edges.size + 1) target) source [] edges.size := by
  apply Path.silent
  rw [mem_leaving_loopEnd h]
  exact Or.inl (Or.inl (h.leaving_subset source
    ((mem_leaving_loopStart hsource).mpr (Or.inr ⟨rfl, rfl⟩))))

include h in
/-- At the end of a turn the loop can go on as often as there are words, and then leave. -/
theorem loop_path_again {w : List CodePoint} (hw : w ∈ l∗) :
    Path (loopEnd edges₁ edges.size (edges.size + 1) target) (edges.size + 1) w target := by
  obtain ⟨parts, rfl, hparts⟩ := Language.mem_kstar.mp hw
  clear hw
  induction parts with
  | nil =>
    apply Path.silent
    exact (mem_leaving_loopEnd h).mpr (Or.inr ⟨rfl, rfl⟩)
  | cons u rest ih =>
    have hrest : ∀ v ∈ rest, v ∈ l := fun v hv => hparts v (List.mem_cons_of_mem u hv)
    have hback : Path (loopEnd edges₁ edges.size (edges.size + 1) target) (edges.size + 1) []
        edges.size := Path.silent ((mem_leaving_loopEnd h).mpr (Or.inl (Or.inr ⟨rfl, rfl⟩)))
    exact hback.append ((loop_path_part h (hparts u List.mem_cons_self)).append (ih hrest))

include hb hsource htarget h in
/-- Labels for the two states of a loop. A turn leads from the first label to the last, and from the
last the loop goes on or leaves. -/
theorem loop_label {label : Nat → Language CodePoint} (hr : Respects label edges)
    {first last : Language CodePoint} (henter : first ≤ label source) (hturn : l * last ≤ first)
    (hback : first ≤ last) (hleave : label target ≤ last) :
    ∃ label', (∀ q < edges.size, label' q = label q) ∧ label' edges.size = first ∧
      Respects label' (loopEnd edges₁ edges.size (edges.size + 1) target) := by
  let labelFirst := Function.update label edges.size first
  let labelLast := Function.update labelFirst (edges.size + 1) last
  have hold : ∀ q < edges.size, labelLast q = label q := by
    intro q hq
    have h₁ : q ≠ edges.size + 1 := by omega
    have h₂ : q ≠ edges.size := by omega
    simp only [labelLast, labelFirst, Function.update_of_ne h₁, Function.update_of_ne h₂]
  have hfirst : labelLast edges.size = first := by
    have h₁ : edges.size ≠ edges.size + 1 := by omega
    simp only [labelLast, labelFirst, Function.update_of_ne h₁, Function.update_self]
  have hlast : labelLast (edges.size + 1) = last := Function.update_self ..
  have hpush : Respects labelLast ((edges.push []).push []) := by
    have h₁ := (hr.push hb first).push hb.push last
    simpa only [Array.size_push] using h₁
  have hstart : Respects labelLast (loopStart edges source) := by
    apply hpush.modify
    · simp only [Array.size_push]
      omega
    · rw [hfirst, hold source hsource]
      simpa only [Edge.language, one_mul] using henter
  have hpart : l * labelLast (edges.size + 1) ≤ labelLast edges.size := by
    rwa [hlast, hfirst]
  obtain ⟨label₁, hsame, hr₁⟩ := h.label labelLast hstart hpart
  have hsize : (loopStart edges source).size = edges.size + 2 := by simp [loopStart]
  have hsize₁ := loop_size_le h
  have hfirst₁ : label₁ edges.size = first := by rw [hsame _ (by omega), hfirst]
  have hlast₁ : label₁ (edges.size + 1) = last := by rw [hsame _ (by omega), hlast]
  have hold₁ : ∀ q < edges.size, label₁ q = label q := by
    intro q hq
    rw [hsame q (by omega), hold q hq]
  refine ⟨label₁, hold₁, hfirst₁, ?_⟩
  apply Respects.modify
  · apply hr₁.modify (by omega)
    rw [hfirst₁, hlast₁]
    simpa only [Edge.language, one_mul] using hback
  · simp only [Array.size_modify]
    omega
  · rw [hlast₁, hold₁ target htarget]
    simpa only [Edge.language, one_mul] using hleave

include hb hsource htarget h in
/-- A loop that is taken once or more. -/
theorem loop_many : Connects edges (loopEnd edges₁ edges.size (edges.size + 1) target) source target
    (l * l∗) where
  size_le := by
    have hsize := loop_size_le h
    simp only [loopEnd, Array.size_modify]
    omega
  leaving_subset := loop_leaving_subset hsource h
  bounded := loop_bounded htarget h
  path := by
    intro w hw
    obtain ⟨u, hu, v, hv, rfl⟩ := Language.mem_mul.mp hw
    exact (loop_path_enter hsource h).append ((loop_path_part h hu).append (loop_path_again h hv))
  label := by
    intro label hr hle
    have hturn : l * (l∗ * label target) ≤ l * l∗ * label target := by rw [mul_assoc]
    have hback : l * l∗ * label target ≤ l∗ * label target :=
      mul_le_mul_left mul_kstar_le_kstar _
    have hleave : label target ≤ l∗ * label target := by
      simpa only [one_mul] using mul_le_mul_left (one_le_kstar (a := l)) (label target)
    obtain ⟨label', hsame, -, hr'⟩ :=
      loop_label hb hsource htarget h hr hle hturn hback hleave
    exact ⟨label', hsame, hr'⟩

include hb hsource htarget h in
/-- A loop that may be passed over. -/
theorem loop_any : Connects edges
    ((loopEnd edges₁ edges.size (edges.size + 1) target).modify edges.size (· ++ [⟨none, target⟩]))
    source target l∗ where
  size_le := by
    have hsize := loop_size_le h
    simp only [loopEnd, Array.size_modify]
    omega
  leaving_subset := by
    have hsize := loop_size_le h
    intro q e he
    refine (mem_leaving_modify ?_).mpr (Or.inl (loop_leaving_subset hsource h q he))
    simp only [loopEnd, Array.size_modify]
    omega
  bounded := by
    have hsize := loop_size_le h
    apply (loop_bounded htarget h).modify
    · simp only [loopEnd, Array.size_modify]
      omega
    · simp only [loopEnd, Array.size_modify]
      omega
  path := by
    intro w hw
    have hsize := loop_size_le h
    have hfirst : edges.size < (loopEnd edges₁ edges.size (edges.size + 1) target).size := by
      simp only [loopEnd, Array.size_modify]
      omega
    have hmono : ∀ q, leaving (loopEnd edges₁ edges.size (edges.size + 1) target) q ⊆
        leaving ((loopEnd edges₁ edges.size (edges.size + 1) target).modify edges.size
          (· ++ [⟨none, target⟩])) q :=
      fun q e he => (mem_leaving_modify hfirst).mpr (Or.inl he)
    have henter := Path.mono hmono (loop_path_enter hsource h)
    rw [← Language.one_add_self_mul_kstar_eq_kstar l, Language.mem_add, Language.mem_one] at hw
    rcases hw with rfl | hw
    · exact henter.append (.silent ((mem_leaving_modify hfirst).mpr (Or.inr ⟨rfl, rfl⟩)))
    · obtain ⟨u, hu, v, hv, rfl⟩ := Language.mem_mul.mp hw
      exact henter.append (((loop_path_part h hu).append (loop_path_again h hv)).mono hmono)
  label := by
    intro label hr hle
    have hsize := loop_size_le h
    have hturn : l * (l∗ * label target) ≤ l∗ * label target := by
      rw [← mul_assoc]
      exact mul_le_mul_left mul_kstar_le_kstar _
    have hleave : label target ≤ l∗ * label target := by
      simpa only [one_mul] using mul_le_mul_left (one_le_kstar (a := l)) (label target)
    obtain ⟨label', hsame, hfirst, hr'⟩ :=
      loop_label hb hsource htarget h hr hle hturn le_rfl hleave
    refine ⟨label', hsame, hr'.modify ?_ ?_⟩
    · simp only [loopEnd, Array.size_modify]
      omega
    · rw [hfirst, hsame target htarget]
      simpa only [Edge.language, one_mul] using hleave

end Loop

end Connects

end Automaton

end GrammarKit
