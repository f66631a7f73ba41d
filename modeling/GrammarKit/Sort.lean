/-!
Sorting by insertion. It goes down the list, so that a sorted list can be computed from a given one
in a proof too, where `List.mergeSort` cannot. Main statement: the two give the same.
-/
namespace GrammarKit

variable {α : Type}

def insertInOrder (le : α → α → Bool) (a : α) : List α → List α
  | [] => [a]
  | b :: rest => if le a b then a :: b :: rest else b :: insertInOrder le a rest

/-- A list in order. Items that may stand before each other stay as they are given. -/
def inOrder (le : α → α → Bool) : List α → List α
  | [] => []
  | a :: rest => insertInOrder le a (inOrder le rest)

theorem insertInOrder_append {le : α → α → Bool} {a : α} {before after : List α}
    (hbefore : ∀ b ∈ before, le a b = false) (hafter : ∀ b ∈ after, le a b = true) :
    insertInOrder le a (before ++ after) = before ++ a :: after := by
  induction before with
  | nil =>
    cases after with
    | nil => rfl
    | cons b after => simp [insertInOrder, hafter b List.mem_cons_self]
  | cons b before ih =>
    have hb := hbefore b List.mem_cons_self
    have hrest := ih fun c hc => hbefore c (List.mem_cons_of_mem _ hc)
    simp [insertInOrder, hb, hrest]

theorem inOrder_eq_mergeSort {le : α → α → Bool}
    (trans : ∀ a b c, le a b = true → le b c = true → le a c = true)
    (total : ∀ a b, (le a b || le b a) = true) (l : List α) : inOrder le l = l.mergeSort le := by
  induction l with
  | nil => rw [inOrder, List.mergeSort_nil]
  | cons a rest ih =>
    obtain ⟨before, after, hcons, hrest, hbefore⟩ := List.mergeSort_cons trans total a rest
    have hpairwise := List.pairwise_mergeSort trans total (a :: rest)
    rw [hcons] at hpairwise
    have hafter := (List.pairwise_cons.mp (List.pairwise_append.mp hpairwise).2.1).1
    rw [inOrder, ih, hrest, hcons]
    exact insertInOrder_append (by simpa using hbefore) hafter

end GrammarKit
