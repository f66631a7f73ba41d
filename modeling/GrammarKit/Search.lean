/-!
Everything that can be reached from given points by steps of a graph. The points that have steps at
all are among a finite list, so the search comes to an end. Main statement: the search finds exactly
the points that some start leads to.
-/
namespace GrammarKit

/-- A graph whose points outside of `points` lead nowhere. -/
structure Graph (α : Type) where
  next : α → List α
  points : List α
  next_eq_nil : ∀ a, a ∉ points → next a = []

namespace Graph

variable {α : Type}

variable [DecidableEq α]

/-- How many steps lead on from the points that have not been seen. -/
def unseen (g : Graph α) (seen : List α) : List α → Nat
  | [] => 0
  | a :: rest => (if a ∈ seen then 0 else (g.next a).length) + g.unseen seen rest

theorem unseen_cons_le (g : Graph α) (a : α) (seen : List α) (points : List α) :
    g.unseen (a :: seen) points ≤ g.unseen seen points := by
  induction points with
  | nil => exact Nat.le_refl _
  | cons b rest ih =>
    simp only [unseen]
    by_cases hb : b ∈ seen
    · rw [if_pos hb, if_pos (List.mem_cons_of_mem a hb)]
      omega
    · rw [if_neg hb]
      split <;> omega

theorem unseen_cons_add_le (g : Graph α) {a : α} {seen points : List α} (ha : a ∈ points)
    (h : a ∉ seen) :
    g.unseen (a :: seen) points + (g.next a).length ≤ g.unseen seen points := by
  induction points with
  | nil => cases ha
  | cons b rest ih =>
    simp only [unseen]
    by_cases hb : b = a
    · have hrest := g.unseen_cons_le a seen rest
      rw [hb, if_neg h, if_pos List.mem_cons_self]
      omega
    · have hrest := ih (List.mem_of_ne_of_mem (Ne.symm hb) ha)
      have hmem : b ∈ a :: seen ↔ b ∈ seen := by simp [hb]
      simp only [hmem]
      omega

/-- Going on to the next points of a point costs no more than was left to do. -/
theorem unseen_next_le (g : Graph α) {a : α} {seen : List α} (h : a ∉ seen) :
    g.unseen (a :: seen) g.points + (g.next a).length ≤ g.unseen seen g.points := by
  by_cases ha : a ∈ g.points
  · exact g.unseen_cons_add_le ha h
  · rw [g.next_eq_nil a ha]
    exact g.unseen_cons_le a seen g.points

def reachFrom (g : Graph α) (pending seen : List α) : List α :=
  match pending with
  | [] => seen
  | a :: rest =>
    if a ∈ seen then g.reachFrom rest seen else g.reachFrom (g.next a ++ rest) (a :: seen)
termination_by g.unseen seen g.points + pending.length
decreasing_by
  · simp
  · rename_i h
    have := g.unseen_next_le h
    simp only [List.length_append, List.length_cons]
    omega

def reach (g : Graph α) (start : List α) : List α := g.reachFrom start []

inductive Leads (g : Graph α) : α → α → Prop where
  | refl (a : α) : Leads g a a
  | step {a b c : α} (h : b ∈ g.next a) (rest : Leads g b c) : Leads g a c

theorem leads_of_mem_reachFrom {g : Graph α} {pending seen : List α} {b : α}
    (h : b ∈ g.reachFrom pending seen) : b ∈ seen ∨ ∃ a ∈ pending, g.Leads a b := by
  fun_induction reachFrom g pending seen with
  | case1 seen => exact Or.inl h
  | case2 seen a rest _ ih =>
    rcases ih h with hseen | ⟨c, hc, hlead⟩
    · exact Or.inl hseen
    · exact Or.inr ⟨c, List.mem_cons_of_mem a hc, hlead⟩
  | case3 seen a rest _ ih =>
    rcases ih h with hseen | ⟨c, hc, hlead⟩
    · rcases List.mem_cons.mp hseen with rfl | hseen
      · exact Or.inr ⟨b, List.mem_cons_self, .refl b⟩
      · exact Or.inl hseen
    · rcases List.mem_append.mp hc with hnext | hrest
      · exact Or.inr ⟨a, List.mem_cons_self, .step hnext hlead⟩
      · exact Or.inr ⟨c, List.mem_cons_of_mem a hrest, hlead⟩

theorem mem_reachFrom_of_mem {g : Graph α} {pending seen : List α} {a : α}
    (h : a ∈ seen ∨ a ∈ pending) : a ∈ g.reachFrom pending seen := by
  fun_induction reachFrom g pending seen with
  | case1 seen => simpa using h
  | case2 seen b rest hb ih =>
    apply ih
    rcases h with h | h
    · exact Or.inl h
    · rcases List.mem_cons.mp h with rfl | h
      · exact Or.inl hb
      · exact Or.inr h
  | case3 seen b rest hb ih =>
    apply ih
    rcases h with h | h
    · exact Or.inl (List.mem_cons_of_mem b h)
    · rcases List.mem_cons.mp h with rfl | h
      · exact Or.inl List.mem_cons_self
      · exact Or.inr (List.mem_append_right _ h)

/-- If the next points of all seen points are seen or pending, the search ends with a list that
holds the next points of all its points. -/
theorem next_mem_reachFrom {g : Graph α} {pending seen : List α}
    (hclosed : ∀ a ∈ seen, ∀ b ∈ g.next a, b ∈ seen ∨ b ∈ pending) {a b : α}
    (ha : a ∈ g.reachFrom pending seen) (hb : b ∈ g.next a) : b ∈ g.reachFrom pending seen := by
  fun_induction reachFrom g pending seen with
  | case1 seen => simpa using hclosed a ha b hb
  | case2 seen c rest hc ih =>
    refine ih (fun x hx y hy => ?_) ha
    rcases hclosed x hx y hy with h | h
    · exact Or.inl h
    · rcases List.mem_cons.mp h with rfl | h
      · exact Or.inl hc
      · exact Or.inr h
  | case3 seen c rest hc ih =>
    refine ih (fun x hx y hy => ?_) ha
    rcases List.mem_cons.mp hx with rfl | hx
    · exact Or.inr (List.mem_append_left _ hy)
    · rcases hclosed x hx y hy with h | h
      · exact Or.inl (List.mem_cons_of_mem c h)
      · rcases List.mem_cons.mp h with rfl | h
        · exact Or.inl List.mem_cons_self
        · exact Or.inr (List.mem_append_right _ h)

theorem mem_reach_iff {g : Graph α} {start : List α} {b : α} :
    b ∈ g.reach start ↔ ∃ a ∈ start, g.Leads a b := by
  constructor
  · intro h
    rcases leads_of_mem_reachFrom h with h | h
    · cases h
    · exact h
  · intro hreach
    obtain ⟨a, ha, hlead⟩ := hreach
    have hstart : a ∈ g.reach start := mem_reachFrom_of_mem (Or.inr ha)
    clear ha
    induction hlead with
    | refl => exact hstart
    | step hnext _ ih => exact ih (next_mem_reachFrom (by simp) hstart hnext)

end Graph

end GrammarKit
