import GrammarKit.Error.Fault

/-!
Maps from names that keep the order in which the names came and refuse a name they already hold.
-/
namespace GrammarKit

structure NameTable (α : Type) where
  entries : List (Text × α)
  nodup : (entries.map Prod.fst).Nodup

namespace NameTable

variable {α : Type}

def empty : NameTable α := ⟨[], by simp⟩

def keys (m : NameTable α) : List Text := m.entries.map Prod.fst

def values (m : NameTable α) : List α := m.entries.map Prod.snd

def size (m : NameTable α) : Nat := m.entries.length

def get? (m : NameTable α) (key : Text) : Option α := m.entries.lookup key

def contains (m : NameTable α) (key : Text) : Bool := key ∈ m.keys

/-- Adds an entry under a name that is new. -/
def append (m : NameTable α) (key : Text) (value : α) (h : key ∉ m.keys) : NameTable α :=
  ⟨m.entries ++ [(key, value)], by
    have hm := m.nodup
    simp only [keys] at h
    simp only [List.map_append, List.map_cons, List.map_nil, List.nodup_append, List.mem_singleton,
      List.nodup_cons, List.not_mem_nil, not_false_eq_true, List.nodup_nil, and_self, true_and]
    refine ⟨hm, ?_⟩
    rintro a ha b rfl rfl
    exact h ha⟩

def push (m : NameTable α) (key : Text) (value : α) : Except Fault (NameTable α) :=
  if h : key ∈ m.keys then .error (.duplicateKey key) else .ok (m.append key value h)

def ofList (pairs : List (Text × α)) : Except Fault (NameTable α) :=
  pairs.foldlM (fun m (key, value) => m.push key value) empty

def update (m : NameTable α) (key : Text) (f : α → α) : NameTable α :=
  ⟨m.entries.map fun e => (e.1, if e.1 = key then f e.2 else e.2), by
    simpa [List.map_map, Function.comp_def] using m.nodup⟩

@[simp] theorem keys_append (m : NameTable α) (key : Text) (value : α) (h : key ∉ m.keys) :
    (m.append key value h).keys = m.keys ++ [key] := by
  simp [keys, append]

theorem get?_isSome_iff (m : NameTable α) (key : Text) : (m.get? key).isSome ↔ key ∈ m.keys := by
  unfold get? keys
  induction m.entries with
  | nil => simp
  | cons e rest ih =>
    by_cases h : key = e.1
    · subst h
      simp
    · simp [h]

theorem get?_eq_none_iff (m : NameTable α) (key : Text) : m.get? key = none ↔ key ∉ m.keys := by
  rw [← get?_isSome_iff]
  simp

theorem get?_append (m : NameTable α) (key : Text) (value : α) (h : key ∉ m.keys) (k : Text) :
    (m.append key value h).get? k = if k = key then some value else m.get? k := by
  have hnone := (m.get?_eq_none_iff key).mpr h
  unfold get? append at *
  simp only [List.lookup_append, List.lookup_cons, List.lookup_nil]
  by_cases hk : k = key
  · subst hk
    simp [hnone]
  · have hbeq : (k == key) = false := by simpa using hk
    simp [hk, hbeq]

theorem get?_update (m : NameTable α) (key : Text) (f : α → α) (k : Text) :
    (m.update key f).get? k = if k = key then (m.get? k).map f else m.get? k := by
  show List.lookup k (m.entries.map fun e => (e.1, if e.1 = key then f e.2 else e.2)) =
    if k = key then (m.entries.lookup k).map f else m.entries.lookup k
  induction m.entries with
  | nil => simp
  | cons e rest ih =>
    obtain ⟨name, value⟩ := e
    simp only [List.map_cons, List.lookup_cons, ih]
    by_cases hk : k = name
    · subst hk
      by_cases he : k = key <;> simp [he]
    · have hbeq : (k == name) = false := by simpa using hk
      simp [hbeq]

end NameTable

end GrammarKit
