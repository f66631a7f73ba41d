import GrammarKit.Rule.Set

/-!
The parts of a rule as one type. What a part matches can then be one relation, with one rule for
each way in which the part can match. A test of the leaves of a part looks into groups at any
depth.
-/
namespace GrammarKit

inductive Phrase where
  /-- The rule of a name. -/
  | rule (name : Text)
  | choice (alternatives : Alternation)
  | body (items : Body)
  | item (i : Item Singular)
  /-- A singular taken again and again. -/
  | row (inner : Singular)
  | singular (inner : Singular)

mutual

def Singular.all (p : Singular → Bool) : Singular → Bool
  | .group alternatives => Alternation.all p alternatives
  | .symbol name span => p (.symbol name span)
  | .literal source matchers span => p (.literal source matchers span)
  | .charset source matcher span => p (.charset source matcher span)

def Alternation.all (p : Singular → Bool) : List (Alternative (Item Singular)) → Bool
  | [] => true
  | a :: rest => Alternative.all p a && Alternation.all p rest

def Alternative.all (p : Singular → Bool) : Alternative (Item Singular) → Bool
  | ⟨_, _, body, _⟩ => Body.all p body

def Body.all (p : Singular → Bool) : List (Item Singular) → Bool
  | [] => true
  | i :: rest => Item.all p i && Body.all p rest

def Item.all (p : Singular → Bool) : Item Singular → Bool
  | ⟨inner, _⟩ => Singular.all p inner

end

theorem Alternative.all_eq (p : Singular → Bool) (a : Alternative (Item Singular)) :
    Alternative.all p a = Body.all p a.body := by
  cases a
  rfl

theorem Alternation.all_iff {p : Singular → Bool} {alternatives : Alternation} :
    Alternation.all p alternatives = true ↔ ∀ a ∈ alternatives, Body.all p a.body = true := by
  induction alternatives with
  | nil => simp [Alternation.all]
  | cons a rest ih =>
    simp only [Alternation.all, Alternative.all_eq, Bool.and_eq_true, ih, List.mem_cons,
      forall_eq_or_imp]

/-- A literal without matchers is built as nothing at all, not as the empty word. -/
def Singular.hasMatchers : Singular → Bool
  | .literal _ matchers _ => !matchers.isEmpty
  | _ => true

/-- What a rule of a kind may consist of. In a production the patterns have been moved out, so that
symbols are left. -/
def Singular.fits (kind : RuleKind) : Singular → Bool
  | .symbol .. => true
  | x => x.hasMatchers && decide (kind ≠ .production)

def RuleSet.LiteralsFilled (rs : RuleSet) : Prop :=
  ∀ r ∈ rs.rules, Alternation.all Singular.hasMatchers r.alternatives = true

instance (rs : RuleSet) : Decidable rs.LiteralsFilled := List.decidableBAll _ _

theorem Singular.hasMatchers_of_fits {kind : RuleKind} {x : Singular} (h : x.fits kind = true) :
    x.hasMatchers = true := by
  cases x with
  | symbol name span => rfl
  | group alternatives => rfl
  | literal source matchers span =>
    simp only [fits, Bool.and_eq_true] at h
    exact h.1
  | charset source matcher span => rfl

def Singular.Implies (p q : Singular → Bool) (known : Reference → Prop) : Prop :=
  ∀ x, p x = true → (∀ r ∈ x.references, known r) → q x = true

section Implication

variable {p q : Singular → Bool} {known : Reference → Prop}

mutual

theorem Singular.all_imp (hpq : Singular.Implies p q known) : ∀ (x : Singular),
    x.all p = true → (∀ r ∈ x.references, known r) → x.all q = true
  | .group alternatives, h, hknown => by
    simp only [Singular.all, Singular.references] at h hknown ⊢
    exact Alternation.all_imp hpq alternatives h hknown
  | .symbol name span, h, hknown => by
    simp only [Singular.all] at h ⊢
    exact hpq _ h hknown
  | .literal source matchers span, h, hknown => by
    simp only [Singular.all] at h ⊢
    exact hpq _ h hknown
  | .charset source matcher span, h, hknown => by
    simp only [Singular.all] at h ⊢
    exact hpq _ h hknown

theorem Alternation.all_imp (hpq : Singular.Implies p q known) :
    ∀ (alternatives : List (Alternative (Item Singular))),
    Alternation.all p alternatives = true → (∀ r ∈ Alternation.references alternatives, known r) →
    Alternation.all q alternatives = true
  | [], _, _ => rfl
  | a :: rest, h, hknown => by
    simp only [Alternation.all, Alternation.references, Bool.and_eq_true, List.mem_append]
      at h hknown ⊢
    exact ⟨Alternative.all_imp hpq a h.1 fun r hr => hknown r (Or.inl hr),
      Alternation.all_imp hpq rest h.2 fun r hr => hknown r (Or.inr hr)⟩

theorem Alternative.all_imp (hpq : Singular.Implies p q known) :
    ∀ (a : Alternative (Item Singular)),
    Alternative.all p a = true → (∀ r ∈ Alternative.references a, known r) →
    Alternative.all q a = true
  | ⟨_, _, items, _⟩, h, hknown => by
    simp only [Alternative.all, Alternative.references] at h hknown ⊢
    exact Body.all_imp hpq items h hknown

theorem Body.all_imp (hpq : Singular.Implies p q known) : ∀ (items : List (Item Singular)),
    Body.all p items = true → (∀ r ∈ Body.references items, known r) → Body.all q items = true
  | [], _, _ => rfl
  | i :: rest, h, hknown => by
    simp only [Body.all, Body.references, Bool.and_eq_true, List.mem_append] at h hknown ⊢
    exact ⟨Item.all_imp hpq i h.1 fun r hr => hknown r (Or.inl hr),
      Body.all_imp hpq rest h.2 fun r hr => hknown r (Or.inr hr)⟩

theorem Item.all_imp (hpq : Singular.Implies p q known) : ∀ (i : Item Singular),
    Item.all p i = true → (∀ r ∈ Item.references i, known r) → Item.all q i = true
  | ⟨inner, _⟩, h, hknown => by
    simp only [Item.all, Item.references] at h hknown ⊢
    exact Singular.all_imp hpq inner h hknown

end

end Implication

end GrammarKit
