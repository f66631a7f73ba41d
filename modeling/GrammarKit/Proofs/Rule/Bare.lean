import GrammarKit.Proofs.Effect
import GrammarKit.Rule.Registry

/-!
Rules and errors without their places. Where a pattern stands in a grammar matters for the place of
an error only: neither the matchers of a pattern nor what is wrong with it depend on its span.
-/
namespace GrammarKit

mutual

def Singular.bare : Singular → Singular
  | .group alternatives => .group (Alternation.bare alternatives)
  | .symbol name _ => .symbol name (.empty 0)
  | .literal source matchers _ => .literal source matchers (.empty 0)
  | .charset source matcher _ => .charset source matcher (.empty 0)

def Alternation.bare : List (Alternative (Item Singular)) → List (Alternative (Item Singular))
  | [] => []
  | a :: rest => Alternative.bare a :: Alternation.bare rest

def Alternative.bare : Alternative (Item Singular) → Alternative (Item Singular)
  | ⟨doc, name, items, _⟩ => ⟨doc, name, Body.bare items, .empty 0⟩

def Body.bare : List (Item Singular) → List (Item Singular)
  | [] => []
  | i :: rest => Item.bare i :: Body.bare rest

def Item.bare : Item Singular → Item Singular
  | ⟨inner, quantifier⟩ => ⟨Singular.bare inner, quantifier⟩

end

mutual

theorem Singular.references_bare : ∀ x : Singular,
    x.bare.references.map Reference.name = x.references.map Reference.name
  | .group alternatives => by
    simp only [Singular.bare, Singular.references, Alternation.references_bare alternatives]
  | .symbol .. | .literal .. | .charset .. => by
    simp only [Singular.bare, Singular.references, List.map_cons, List.map_nil]

theorem Alternation.references_bare : ∀ alternatives : List (Alternative (Item Singular)),
    (Alternation.references (Alternation.bare alternatives)).map Reference.name =
      (Alternation.references alternatives).map Reference.name
  | [] => rfl
  | a :: rest => by
    simp only [Alternation.bare, Alternation.references, List.map_append,
      Alternative.references_bare a, Alternation.references_bare rest]

theorem Alternative.references_bare : ∀ a : Alternative (Item Singular),
    (Alternative.references (Alternative.bare a)).map Reference.name =
      (Alternative.references a).map Reference.name
  | ⟨_, _, items, _⟩ => by
    simp only [Alternative.bare, Alternative.references, Body.references_bare items]

theorem Body.references_bare : ∀ items : List (Item Singular),
    (Body.references (Body.bare items)).map Reference.name =
      (Body.references items).map Reference.name
  | [] => rfl
  | i :: rest => by
    simp only [Body.bare, Body.references, List.map_append, Item.references_bare i,
      Body.references_bare rest]

theorem Item.references_bare : ∀ i : Item Singular,
    (Item.references (Item.bare i)).map Reference.name = (Item.references i).map Reference.name
  | ⟨inner, _⟩ => by
    simp only [Item.bare, Item.references, Singular.references_bare inner]

end

def Rule.bare (r : Rule) : Rule :=
  { r with alternatives := Alternation.bare r.alternatives, span := .empty 0 }

theorem Rule.names_of_bare {r r' : Rule} (h : r.bare = r'.bare) :
    r.references.map Reference.name = r'.references.map Reference.name := by
  have halternatives : Alternation.bare r.alternatives = Alternation.bare r'.alternatives := by
    simp only [Rule.bare, Rule.mk.injEq] at h
    exact h.2.2.1
  rw [references, ← Alternation.references_bare, halternatives, Alternation.references_bare]
  rfl

def GrammarError.bare (e : GrammarError) : GrammarError := { e with span := none }

def Failure.bare : Failure → Failure
  | .grammar e => .grammar e.bare
  | failure => failure

def SameButPlace {α : Type} (x y : Except GrammarError α) : Prop :=
  x.mapError GrammarError.bare = y.mapError GrammarError.bare

namespace SameButPlace

variable {α β : Type} {x y : Except GrammarError α}

theorem refl (x : Except GrammarError α) : SameButPlace x x := rfl

theorem bind (h : SameButPlace x y) {f g : α → Except GrammarError β}
    (hfg : ∀ a, SameButPlace (f a) (g a)) : SameButPlace (x >>= f) (y >>= g) := by
  cases x with
  | error e =>
    cases y with
    | error d => exact congrArg Except.error (Except.error.inj h)
    | ok b => cases h
  | ok a =>
    cases y with
    | error d => cases h
    | ok b =>
      cases h
      exact hfg a

/-- Loops over lists whose members correspond. -/
theorem forM {key : Type} {f : α → Except GrammarError Unit} {g : β → Except GrammarError Unit}
    {left : α → key} {right : β → key}
    (hfg : ∀ a b, left a = right b → SameButPlace (f a) (g b)) :
    ∀ {l : List α} {l' : List β}, l.map left = l'.map right →
      SameButPlace (l.forM f) (l'.forM g) := by
  intro l
  induction l with
  | nil =>
    intro l' h
    cases l' with
    | nil => exact .refl _
    | cons => simp only [List.map_nil, List.map_cons, reduceCtorEq] at h
  | cons a rest ih =>
    intro l' h
    cases l' with
    | nil => simp only [List.map_nil, List.map_cons, reduceCtorEq] at h
    | cons b rest' =>
      simp only [List.map_cons, List.cons.injEq] at h
      exact (hfg a b h.1).bind fun _ => ih h.2

theorem cases (h : SameButPlace x y) :
    (∃ a, x = .ok a ∧ y = .ok a) ∨ ∃ e d, x = .error e ∧ y = .error d ∧ e.bare = d.bare := by
  cases x with
  | error e =>
    cases y with
    | error d => exact Or.inr ⟨e, d, rfl, rfl, Except.error.inj h⟩
    | ok b => cases h
  | ok a =>
    cases y with
    | error d => cases h
    | ok b =>
      cases h
      exact Or.inl ⟨a, rfl, rfl⟩

end SameButPlace

namespace Pattern

variable (text : Text) (rule : Option Text) (span other : Span)

theorem characterAt_span (offset : Nat) :
    SameButPlace (characterAt ⟨text, span, rule⟩ offset)
      (characterAt ⟨text, other, rule⟩ offset) := by
  unfold characterAt
  simp only
  split
  · refine SameButPlace.bind ?_ fun _ => .refl _
    unfold Escape.readAt
    split
    · exact .refl _
    · rfl
  · exact .refl _

theorem charactersFrom_span (stop : Nat) : ∀ (left offset : Nat), stop - offset ≤ left →
    SameButPlace (charactersFrom ⟨text, span, rule⟩ stop offset)
      (charactersFrom ⟨text, other, rule⟩ stop offset) := by
  intro left
  induction left with
  | zero =>
    intro offset hleft
    have hover : ¬offset < stop := by omega
    rw [charactersFrom, if_neg hover, charactersFrom, if_neg hover]
    exact .refl _
  | succ left ih =>
    intro offset hleft
    rw [charactersFrom, charactersFrom]
    split
    · refine (characterAt_span text rule span other offset).bind fun found => ?_
      split
      · exact .refl _
      · split
        · exact (ih _ (by omega)).bind fun _ => .refl _
        · exact .refl _
    · exact .refl _

theorem body_span : SameButPlace (body ⟨text, span, rule⟩) (body ⟨text, other, rule⟩) :=
  charactersFrom_span text rule span other _ _ _ (Nat.le_refl _)

theorem literal_span : SameButPlace (literal ⟨text, span, rule⟩) (literal ⟨text, other, rule⟩) := by
  refine (body_span text rule span other).bind fun characters => ?_
  split
  · rfl
  · exact .refl _

theorem escape_span : SameButPlace (escape ⟨text, span, rule⟩) (escape ⟨text, other, rule⟩) := by
  refine (charactersFrom_span text rule span other _ _ _ (Nat.le_refl _)).bind fun characters => ?_
  split
  · exact .refl _
  · rfl

theorem entries_span (characters : List Character) :
    SameButPlace (entries ⟨text, span, rule⟩ characters)
      (entries ⟨text, other, rule⟩ characters) := by
  fun_induction entries ⟨text, span, rule⟩ characters with
  | case1 => exact .refl _
  | case2 c dash last rest hspecial =>
    rw [entries, if_pos hspecial]
    rfl
  | case3 c dash last rest hspecial hdash hlast =>
    rw [entries, if_neg hspecial, if_pos hdash, if_pos hlast]
    rfl
  | case4 c dash last rest hspecial hdash hlast hreversed =>
    rw [entries, if_neg hspecial, if_pos hdash, if_neg hlast, if_pos hreversed]
    rfl
  | case5 c dash last rest hspecial hdash hlast hreversed ih =>
    rw [entries, if_neg hspecial, if_pos hdash, if_neg hlast, if_neg hreversed]
    exact ih.bind fun _ => .refl _
  | case6 c dash last rest hspecial hdash ih =>
    rw [entries, if_neg hspecial, if_neg hdash]
    exact ih.bind fun _ => .refl _
  | case7 c rest hshort hspecial =>
    rw [entries, if_pos hspecial]
    · rfl
    · exact hshort
  | case8 c rest hshort hspecial ih =>
    rw [entries, if_neg hspecial]
    · exact ih.bind fun _ => .refl _
    · exact hshort

theorem charset_span : SameButPlace (charset ⟨text, span, rule⟩) (charset ⟨text, other, rule⟩) := by
  refine (body_span text rule span other).bind fun characters => ?_
  split
  · rfl
  · split
    · exact (entries_span text rule span other _).bind fun _ => .refl _
    · exact (entries_span text rule span other _).bind fun _ => .refl _

end Pattern

end GrammarKit
