import GrammarKit.Text.Basic

/-!
Pipelines of items that are handed out one at a time. A stage keeps the stages before it, partly
used up, and asks them for no more than it has to hand out. `toList` is the meaning of a pipeline,
the list of all items it still holds. Main statement: `next` hands out the head of that list and
leaves a pipeline that holds its tail.
-/
namespace GrammarKit

inductive Pipeline : Type → Type 1 where
  | items {α : Type} (xs : List α) : Pipeline α
  | map {α β : Type} (f : α → β) (p : Pipeline α) : Pipeline β
  | filter {α : Type} (keep : α → Bool) (p : Pipeline α) : Pipeline α
  | append {α : Type} (p q : Pipeline α) : Pipeline α

namespace Pipeline

variable {α : Type}

instance : Inhabited (Pipeline α) := ⟨.items []⟩

/-- The number of items that no stage has passed on. -/
def weight : {α : Type} → Pipeline α → Nat
  | _, items xs => xs.length
  | _, map _ p => p.weight
  | _, filter _ p => p.weight
  | _, append p q => p.weight + q.weight

/-- What comes of asking a pipeline for an item: the item, if there is one, and the pipeline as it
is left. -/
structure Handed (α : Type) (weight : Nat) where
  item : Option α
  rest : Pipeline α
  /-- Nothing comes back, and an item that is handed out is gone. -/
  weight_le : rest.weight + item.toList.length ≤ weight

def Handed.ofLe {m n : Nat} (h : Handed α m) (hle : m ≤ n) : Handed α n :=
  ⟨h.item, h.rest, Nat.le_trans h.weight_le hle⟩

/-- Asks for the next item. A pipeline that is used up at the front of others is left out from then
on. -/
def next {α : Type} (p : Pipeline α) : Handed α p.weight :=
  match p with
  | items [] => ⟨none, items [], Nat.le_refl _⟩
  | items (x :: xs) => ⟨some x, items xs, Nat.le_refl _⟩
  | map f p =>
    match p.next with
    | ⟨none, q, h⟩ => ⟨none, map f q, h⟩
    | ⟨some x, q, h⟩ => ⟨some (f x), map f q, h⟩
  | filter keep p =>
    match p.next with
    | ⟨none, q, h⟩ => ⟨none, filter keep q, h⟩
    | ⟨some x, q, h⟩ =>
      if keep x then ⟨some x, filter keep q, h⟩
      else (filter keep q).next.ofLe (Nat.le_of_succ_le h)
  | append p q =>
    match p.next with
    | ⟨some x, r, h⟩ => ⟨some x, append r q, by simp only [weight]; omega⟩
    | ⟨none, _, _⟩ => q.next.ofLe (Nat.le_add_left _ _)
termination_by (p.weight, sizeOf p)
decreasing_by
  · exact Prod.Lex.right _ (by simp only [map.sizeOf_spec]; omega)
  · exact Prod.Lex.right _ (by simp only [filter.sizeOf_spec]; omega)
  · exact Prod.Lex.left _ _ h
  · exact Prod.Lex.right' _ (Nat.le_add_right _ _) (by simp only [append.sizeOf_spec]; omega)
  · exact Prod.Lex.right' _ (Nat.le_add_left _ _) (by simp only [append.sizeOf_spec]; omega)

def takeOne (p : Pipeline α) : Option α × Pipeline α :=
  match p.next with
  | ⟨x, q, _⟩ => (x, q)

def takeAll (p : Pipeline α) : List α × Pipeline α :=
  match p.next with
  | ⟨none, q, _⟩ => ([], q)
  | ⟨some x, q, _⟩ =>
    let (xs, r) := q.takeAll
    (x :: xs, r)
termination_by p.weight
decreasing_by assumption

def drain (p : Pipeline α) : List α := p.takeAll.1

def concat (p : Pipeline α) : List (Pipeline α) → Pipeline α
  | [] => p
  | q :: rest => append p (concat q rest)

inductive Request where
  | next
  | first
  | all
  | join (separator : Text)

inductive Reply (α : Type) where
  | item (x : Option α)
  | items (xs : List α)
  | text (t : Text)

def answer (render : α → Text) (p : Pipeline α) : Request → Reply α × Pipeline α
  | .next | .first =>
    let (x, q) := p.takeOne
    (.item x, q)
  | .all =>
    let (xs, q) := p.takeAll
    (.items xs, q)
  | .join separator =>
    let (xs, q) := p.takeAll
    (.text (Text.join separator (xs.map render)), q)

def answerAll (render : α → Text) (p : Pipeline α) : List Request → List (Reply α) × Pipeline α
  | [] => ([], p)
  | r :: rest =>
    let (reply, q) := p.answer render r
    let (replies, q) := q.answerAll render rest
    (reply :: replies, q)

/-- The list a pipeline stands for. -/
def toList : {α : Type} → Pipeline α → List α
  | _, items xs => xs
  | _, map f p => p.toList.map f
  | _, filter keep p => p.toList.filter keep
  | _, append p q => p.toList ++ q.toList

/-- What `next` does to the list: it takes the head off, or there is none and none is left. -/
theorem next_toList {α : Type} (p : Pipeline α) :
    match p.next.item with
    | none => p.toList = [] ∧ p.next.rest.toList = []
    | some x => p.toList = x :: p.next.rest.toList := by
  fun_induction next p with
  | case1 => exact ⟨rfl, rfl⟩
  | case2 => rfl
  | case3 α β f p q h hnext ih => simp_all [toList]
  | case4 α β f p x q h hnext ih => simp_all [toList]
  | case5 α keep p q h hnext ih => simp_all [toList]
  | case6 α keep p x q h hnext hkeep ih => simp_all [toList]
  | case7 α keep p x q h hnext hkeep ih ihrest =>
    rw [hnext] at ih
    have hp : p.toList = x :: q.toList := ih
    have hskip : (filter keep p).toList = (filter keep q).toList := by simp [toList, hp, hkeep]
    rw [hskip]
    exact ihrest
  | case8 α p q x r h hnext ih => simp_all [toList]
  | case9 α p q r h hnext ih ihrest =>
    rw [hnext] at ih
    have hp : p.toList = [] := ih.1
    have hshift : (append p q).toList = q.toList := by simp [toList, hp]
    rw [hshift]
    exact ihrest

/-- One item is the head of the list, and its tail is left. -/
theorem takeOne_toList (p : Pipeline α) :
    p.takeOne.1 = p.toList.head? ∧ p.takeOne.2.toList = p.toList.tail := by
  have h := p.next_toList
  cases hitem : p.next.item with
  | none =>
    rw [hitem] at h
    exact ⟨by rw [h.1]; exact hitem, by rw [h.1]; exact h.2⟩
  | some x =>
    rw [hitem] at h
    exact ⟨by rw [h]; exact hitem, by rw [h]; rfl⟩

/-- All items are the list, and nothing is left. -/
theorem takeAll_toList (p : Pipeline α) : p.takeAll.1 = p.toList ∧ p.takeAll.2.toList = [] := by
  fun_induction takeAll p with
  | case1 p q hle hnext =>
    have h := p.next_toList
    rw [hnext] at h
    exact ⟨h.1.symm, h.2⟩
  | case2 p x q hle hnext xs r hrest ih =>
    have h := p.next_toList
    rw [hnext] at h
    rw [hrest] at ih
    exact ⟨by rw [h, ← ih.1], ih.2⟩

theorem toList_concat (p : Pipeline α) (rest : List (Pipeline α)) :
    (concat p rest).toList = p.toList ++ rest.flatMap toList := by
  induction rest generalizing p with
  | nil => exact (List.append_nil _).symm
  | cons q rest ih => rw [concat, toList, ih, List.flatMap_cons]

end Pipeline

end GrammarKit
