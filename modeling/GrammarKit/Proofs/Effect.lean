/-!
Contracts of computations that change a state and may fail. A contract says what holds after a
computation that starts in a good state, whether it gives an answer or fails, or it relates what two
computations do. Contracts are put together along the structure of a computation, so that nothing
has to be run.
-/
namespace GrammarKit

/-- What comes to an answer has come through all of its steps. -/
theorem exists_of_bind_eq_ok {ε α β : Type} {x : Except ε α} {f : α → Except ε β} {b : β}
    (h : x >>= f = .ok b) : ∃ a, x = .ok a ∧ f a = .ok b := by
  cases x with
  | error e => cases h
  | ok a => exact ⟨a, rfl, h⟩

/-- What fails has failed in one of its steps. -/
theorem cases_of_bind_eq_error {ε α β : Type} {x : Except ε α} {f : α → Except ε β} {e : ε}
    (h : x >>= f = .error e) : x = .error e ∨ ∃ a, x = .ok a ∧ f a = .error e := by
  cases x with
  | error e' =>
    cases h
    exact Or.inl rfl
  | ok a => exact Or.inr ⟨a, rfl, h⟩

theorem eq_ok_of_mapError {ε ε' α : Type} {f : ε → ε'} {x : Except ε α} {a : α}
    (h : x.mapError f = .ok a) : x = .ok a := by
  cases x with
  | error e => cases h
  | ok b =>
    cases h
    rfl

/-- An answer of which a test holds. -/
theorem exists_of_toOption_any {ε α : Type} {x : Except ε α} {test : α → Bool}
    (h : x.toOption.any test = true) : ∃ a, x = .ok a ∧ test a = true := by
  cases x with
  | error e => cases h
  | ok a => exact ⟨a, rfl, h⟩

/-- From a state where `pre` holds a computation comes to an answer and a state of which `post`
holds, or it fails in a state of which `exit` holds. -/
def Ensures {ε σ α : Type} (pre : σ → Prop) (x : ExceptT ε (StateM σ) α) (post : α → σ → Prop)
    (exit : ε → σ → Prop) : Prop :=
  ∀ s, pre s →
    match x.run.run s with
    | (.ok a, s') => post a s'
    | (.error e, s') => exit e s'

namespace Ensures

variable {ε σ α β : Type} {pre pre' : σ → Prop} {post post' : α → σ → Prop}
  {exit exit' : ε → σ → Prop} {x : ExceptT ε (StateM σ) α}

theorem run_bind (x : ExceptT ε (StateM σ) α) (f : α → ExceptT ε (StateM σ) β) (s : σ) :
    (x >>= f).run.run s =
      match x.run.run s with
      | (.ok a, s') => (f a).run.run s'
      | (.error e, s') => (.error e, s') := by
  show (x.run >>= ExceptT.bindCont f).run s = _
  rw [StateT.run_bind]
  show ExceptT.bindCont f (x.run.run s).1 (x.run.run s).2 = _
  obtain ⟨r, s'⟩ := x.run.run s
  cases r <;> rfl

theorem run_get_bind (f : σ → ExceptT ε (StateM σ) α) (s : σ) :
    (get >>= f).run.run s = (f s).run.run s := rfl

theorem run_set_bind (s' : σ) (f : PUnit → ExceptT ε (StateM σ) α) (s : σ) :
    ((set s' : ExceptT ε (StateM σ) PUnit) >>= f).run.run s = (f ⟨⟩).run.run s' := rfl

theorem exists_of_run_bind {y : ExceptT ε (StateM σ) β} {f : β → ExceptT ε (StateM σ) α}
    {s s' : σ} {a : α} (h : (y >>= f).run.run s = (.ok a, s')) :
    ∃ b middle, y.run.run s = (.ok b, middle) ∧ (f b).run.run middle = (.ok a, s') := by
  rw [run_bind] at h
  generalize y.run.run s = result at h ⊢
  obtain ⟨failure | b, middle⟩ := result
  · cases h
  · exact ⟨b, middle, rfl, h⟩

theorem answer (h : Ensures pre x post exit) {s s' : σ} (hs : pre s) {a : α}
    (hrun : x.run.run s = (.ok a, s')) : post a s' := by
  have h := h s hs
  rwa [hrun] at h

theorem failure (h : Ensures pre x post exit) {s s' : σ} (hs : pre s) {e : ε}
    (hrun : x.run.run s = (.error e, s')) : exit e s' := by
  have h := h s hs
  rwa [hrun] at h

/-- What holds of the state in either case. -/
theorem state {good : σ → Prop} (h : Ensures pre x (fun _ s => good s) fun _ s => good s) {s : σ}
    (hs : pre s) : good (x.run.run s).2 := by
  have h := h s hs
  generalize x.run.run s = result at h ⊢
  obtain ⟨failure | answer, s'⟩ := result
  · exact h
  · exact h

theorem imp (h : Ensures pre x post exit) (hpre : ∀ s, pre' s → pre s)
    (hpost : ∀ a s, post a s → post' a s) (hexit : ∀ e s, exit e s → exit' e s) :
    Ensures pre' x post' exit' := by
  intro s hs
  have h := h s (hpre s hs)
  split at h
  · exact hpost _ _ h
  · exact hexit _ _ h

theorem of_pure {a : α} (h : ∀ s, pre s → post a s) :
    Ensures pre (pure a : ExceptT ε (StateM σ) α) post exit := h

theorem of_throw {e : ε} (h : ∀ s, pre s → exit e s) :
    Ensures pre (throw e : ExceptT ε (StateM σ) α) post exit := h

theorem bind {mid : β → σ → Prop} {y : ExceptT ε (StateM σ) β}
    {f : β → ExceptT ε (StateM σ) α} (hy : Ensures pre y mid exit)
    (hf : ∀ b, Ensures (mid b) (f b) post exit) : Ensures pre (y >>= f) post exit := by
  intro s hs
  rw [run_bind]
  have hy := hy s hs
  split at hy
  · next b s' _ => exact hf b s' hy
  · exact hy

/-- Reading the state, and going on with what was read. -/
theorem get_bind {f : σ → ExceptT ε (StateM σ) α}
    (h : ∀ s, pre s → Ensures (fun s' => s' = s) (f s) post exit) :
    Ensures pre (get >>= f) post exit := fun s hs => h s hs s rfl

/-- What each step of a loop keeps is kept by the loop. -/
theorem forM_of_mem {inv : σ → Prop} {f : β → ExceptT ε (StateM σ) PUnit} {l : List β}
    (hf : ∀ b ∈ l, Ensures inv (f b) (fun _ s => inv s) exit) :
    Ensures inv (l.forM f) (fun _ s => inv s) exit := by
  induction l with
  | nil => exact of_pure fun _ h => h
  | cons b rest ih =>
    have hrest := ih fun b' hb' => hf b' (List.mem_cons_of_mem b hb')
    exact bind (hf b List.mem_cons_self) fun _ => hrest

theorem forM {inv : σ → Prop} {f : β → ExceptT ε (StateM σ) PUnit}
    (hf : ∀ b, Ensures inv (f b) (fun _ s => inv s) exit) (l : List β) :
    Ensures inv (l.forM f) (fun _ s => inv s) exit := forM_of_mem fun b _ => hf b

theorem of_set {s' : σ} {post : PUnit → σ → Prop} (h : ∀ s, pre s → post ⟨⟩ s') :
    Ensures pre (set s' : ExceptT ε (StateM σ) PUnit) post exit := fun s hs => h s hs

theorem of_modify {f : σ → σ} {post : PUnit → σ → Prop} (h : ∀ s, pre s → post ⟨⟩ (f s)) :
    Ensures pre (modify f : ExceptT ε (StateM σ) PUnit) post exit := fun s hs => h s hs

end Ensures

/-- A contract that does not look at the state: the answer is good, or the failure is one that may
happen. -/
def Yields {ε σ α : Type} (x : ExceptT ε (StateM σ) α) (good : α → Prop) (bad : ε → Prop) : Prop :=
  Ensures (fun _ => True) x (fun a _ => good a) (fun e _ => bad e)

namespace Yields

variable {ε σ α β : Type} {good good' : α → Prop} {bad : ε → Prop} {x : ExceptT ε (StateM σ) α}

theorem imp (h : Yields x good bad) (hgood : ∀ a, good a → good' a) : Yields x good' bad :=
  Ensures.imp h (fun _ h => h) (fun a _ => hgood a) (fun _ _ h => h)

theorem weaken {bad' : ε → Prop} (h : Yields x good bad) (hbad : ∀ e, bad e → bad' e) :
    Yields x good bad' := Ensures.imp h (fun _ h => h) (fun _ _ h => h) (fun e _ => hbad e)

theorem of_true (x : ExceptT ε (StateM σ) α) : Yields x (fun _ => True) (fun _ => True) := by
  intro s hs
  split
  · trivial
  · trivial

theorem and {bad' : ε → Prop} (h : Yields x good bad) (h' : Yields x good' bad') :
    Yields x (fun a => good a ∧ good' a) bad := by
  intro s hs
  have h := h s hs
  have h' := h' s hs
  generalize x.run.run s = result at h h' ⊢
  obtain ⟨failure | answer, s'⟩ := result
  · exact h
  · exact ⟨h, h'⟩

theorem of_pure {a : α} (h : good a) : Yields (pure a : ExceptT ε (StateM σ) α) good bad :=
  Ensures.of_pure fun _ _ => h

theorem of_throw {e : ε} (h : bad e) : Yields (throw e : ExceptT ε (StateM σ) α) good bad :=
  Ensures.of_throw fun _ _ => h

theorem bind {y : ExceptT ε (StateM σ) β} {f : β → ExceptT ε (StateM σ) α} {middle : β → Prop}
    (hy : Yields y middle bad) (hf : ∀ b, middle b → Yields (f b) good bad) :
    Yields (y >>= f) good bad := by
  refine Ensures.bind hy fun b => ?_
  intro s hb
  exact hf b hb s trivial

/-- What follows matters for the answers only that there can be. -/
theorem bind_congr {y : ExceptT ε (StateM σ) β} {f g : β → ExceptT ε (StateM σ) α}
    {middle : β → Prop} (hy : Yields y middle bad) (hfg : ∀ b, middle b → f b = g b) :
    y >>= f = y >>= g := by
  apply ExceptT.ext
  apply StateT.ext
  intro s
  have hy := hy s trivial
  show (y >>= f).run.run s = (y >>= g).run.run s
  rw [Ensures.run_bind, Ensures.run_bind]
  generalize y.run.run s = result at hy ⊢
  obtain ⟨failure | answer, s'⟩ := result
  · rfl
  · show (f answer).run.run s' = (g answer).run.run s'
    rw [hfg answer hy]

theorem answer (h : Yields x good bad) {s s' : σ} {a : α} (hrun : x.run.run s = (.ok a, s')) :
    good a := Ensures.answer h trivial hrun

theorem failure (h : Yields x good bad) {s s' : σ} {e : ε} (hrun : x.run.run s = (.error e, s')) :
    bad e := Ensures.failure h trivial hrun

end Yields

section SideBySide

variable {ε σ τ α β : Type}

/-- How two computations end side by side: both with related answers and states, or both by related
failures. Where one of the failures is waived, nothing is said. -/
def Paired (state : σ → τ → Prop) (fails : ε → ε → Prop) (waived : ε → Prop)
    (answers : α → β → Prop) : Except ε α × σ → Except ε β × τ → Prop
  | (.ok a, s), (.ok b, t) => answers a b ∧ state s t
  | (.error e, _), (.error d, _) => fails e d ∨ waived e ∨ waived d
  | (.error e, _), (.ok _, _) => waived e
  | (.ok _, _), (.error d, _) => waived d

variable {state : σ → τ → Prop} {fails : ε → ε → Prop} {waived : ε → Prop}
  {answers : α → β → Prop}

theorem Paired.of_left {e : ε} (h : waived e) (s : σ) (right : Except ε β × τ) :
    Paired state fails waived answers (.error e, s) right := by
  obtain ⟨d | b, t⟩ := right
  · exact Or.inr (Or.inl h)
  · exact h

theorem Paired.of_right {d : ε} (h : waived d) (left : Except ε α × σ) (t : τ) :
    Paired state fails waived answers left (.error d, t) := by
  obtain ⟨e | a, s⟩ := left
  · exact Or.inr (Or.inr h)
  · exact h

def InStep (state : σ → τ → Prop) (fails : ε → ε → Prop) (waived : ε → Prop)
    (x : ExceptT ε (StateM σ) α) (y : ExceptT ε (StateM τ) β) (answers : α → β → Prop) : Prop :=
  ∀ s t, state s t → Paired state fails waived answers (x.run.run s) (y.run.run t)

namespace InStep

theorem of_pure {a : α} {b : β} (h : answers a b) :
    InStep state fails waived (pure a : ExceptT ε (StateM σ) α) (pure b : ExceptT ε (StateM τ) β)
      answers := fun _ _ hst => ⟨h, hst⟩

theorem of_throw {e d : ε} (h : fails e d) :
    InStep state fails waived (throw e : ExceptT ε (StateM σ) α)
      (throw d : ExceptT ε (StateM τ) β) answers := fun _ _ _ => Or.inl h

theorem of_modify {f : σ → σ} {g : τ → τ} (h : ∀ s t, state s t → state (f s) (g t)) :
    InStep state fails waived (modify f : ExceptT ε (StateM σ) PUnit)
      (modify g : ExceptT ε (StateM τ) PUnit) (fun _ _ => True) :=
  fun s t hst => ⟨trivial, h s t hst⟩

theorem bind {α' β' : Type} {x : ExceptT ε (StateM σ) α'} {y : ExceptT ε (StateM τ) β'}
    {f : α' → ExceptT ε (StateM σ) α} {g : β' → ExceptT ε (StateM τ) β}
    {middle : α' → β' → Prop} (hxy : InStep state fails waived x y middle)
    (hfg : ∀ a b, middle a b → InStep state fails waived (f a) (g b) answers) :
    InStep state fails waived (x >>= f) (y >>= g) answers := by
  intro s t hst
  have hxy := hxy s t hst
  rw [Ensures.run_bind, Ensures.run_bind]
  generalize x.run.run s = left at hxy ⊢
  generalize y.run.run t = right at hxy ⊢
  obtain ⟨e | a, s'⟩ := left
  · obtain ⟨d | b, t'⟩ := right
    · exact hxy
    · have hwaived : waived e := hxy
      exact Paired.of_left hwaived s' _
  · obtain ⟨d | b, t'⟩ := right
    · have hwaived : waived d := hxy
      exact Paired.of_right hwaived _ t'
    · exact hfg a b hxy.1 s' t' hxy.2

end InStep

end SideBySide

end GrammarKit
