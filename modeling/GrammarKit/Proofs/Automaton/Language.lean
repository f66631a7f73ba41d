import GrammarKit.Automaton.Build
import GrammarKit.Proofs.Rule.Phrase
import Mathlib.Computability.Language
import Mathlib.Order.CompletePartialOrder

/-!
The language of a token rule, as a set of words of code points, with no automaton in sight. `Word`
gives the rules by which a word belongs to a part of a rule, and the equations below read them in
terms of union, product and iteration of languages.
-/
namespace GrammarKit

open scoped Computability

def Matcher.language (m : Matcher) : Language CodePoint :=
  {w | ∃ c : CodePoint, m.accepts c = true ∧ w = [c]}

inductive Word (rs : RuleSet) : Phrase → List CodePoint → Prop where
  | rule {name : Text} {r : Rule} {w : List CodePoint} (hget : rs.get? name = some r)
      (h : Word rs (.choice r.alternatives) w) : Word rs (.rule name) w
  | choice {alternatives : Alternation} {a : Alternative (Item Singular)} {w : List CodePoint}
      (ha : a ∈ alternatives) (h : Word rs (.body a.body) w) : Word rs (.choice alternatives) w
  | empty : Word rs (.body []) []
  | sequence {i : Item Singular} {rest : Body} {u v : List CodePoint}
      (hi : Word rs (.item i) u) (hrest : Word rs (.body rest) v) :
      Word rs (.body (i :: rest)) (u ++ v)
  | one {x : Singular} {w : List CodePoint} (h : Word rs (.singular x) w) :
      Word rs (.item ⟨x, .one⟩) w
  | absent {x : Singular} : Word rs (.item ⟨x, .maybe⟩) []
  | present {x : Singular} {w : List CodePoint} (h : Word rs (.singular x) w) :
      Word rs (.item ⟨x, .maybe⟩) w
  | any {x : Singular} {w : List CodePoint} (h : Word rs (.row x) w) : Word rs (.item ⟨x, .any⟩) w
  | many {x : Singular} {u v : List CodePoint} (h : Word rs (.singular x) u)
      (hrest : Word rs (.row x) v) : Word rs (.item ⟨x, .many⟩) (u ++ v)
  | rowEnd {x : Singular} : Word rs (.row x) []
  | rowStep {x : Singular} {u v : List CodePoint} (h : Word rs (.singular x) u)
      (hrest : Word rs (.row x) v) : Word rs (.row x) (u ++ v)
  | group {alternatives : Alternation} {w : List CodePoint}
      (h : Word rs (.choice alternatives) w) : Word rs (.singular (.group alternatives)) w
  | symbol {name : Text} {span : Span} {w : List CodePoint} (h : Word rs (.rule name) w) :
      Word rs (.singular (.symbol name span)) w
  | literal {source : Text} {matchers : List Matcher} {span : Span} {w : List CodePoint}
      (h : List.Forall₂ (fun m c => m.accepts c = true) matchers w) :
      Word rs (.singular (.literal source matchers span)) w
  | charset {source : Text} {m : Matcher} {span : Span} {c : CodePoint}
      (h : m.accepts c = true) : Word rs (.singular (.charset source m span)) [c]

def Phrase.language (rs : RuleSet) (p : Phrase) : Language CodePoint := {w | Word rs p w}

def Quantifier.language (q : Quantifier) (l : Language CodePoint) : Language CodePoint :=
  match q with
  | .one => l
  | .maybe => l + 1
  | .any => l∗
  | .many => l * l∗

namespace Phrase

variable {rs : RuleSet}

theorem mem_language {p : Phrase} {w : List CodePoint} : w ∈ p.language rs ↔ Word rs p w := Iff.rfl

theorem language_rule {name : Text} {r : Rule} (hget : rs.get? name = some r) :
    (rule name).language rs = (choice r.alternatives).language rs := by
  ext w
  constructor
  · intro h
    cases h with
    | rule hget' h =>
      rw [hget, Option.some.injEq] at hget'
      rwa [hget']
  · exact fun h => .rule hget h

theorem language_choice_nil : (choice []).language rs = 0 := by
  ext w
  constructor
  · intro h
    cases h with
    | choice ha => cases ha
  · exact fun h => (Language.notMem_zero w h).elim

theorem language_choice_cons (a : Alternative (Item Singular)) (rest : Alternation) :
    (choice (a :: rest)).language rs = (body a.body).language rs + (choice rest).language rs := by
  ext w
  rw [Language.mem_add]
  constructor
  · intro h
    cases h with
    | choice ha h =>
      rcases List.mem_cons.mp ha with rfl | ha
      · exact Or.inl h
      · exact Or.inr (.choice ha h)
  · intro hword
    rcases hword with h | h
    · exact .choice List.mem_cons_self h
    · cases h with
      | choice ha h => exact .choice (List.mem_cons_of_mem a ha) h

theorem language_body_nil : (body []).language rs = 1 := by
  ext w
  rw [Language.mem_one]
  constructor
  · intro h
    cases h
    rfl
  · rintro rfl
    exact .empty

theorem language_body_cons (i : Item Singular) (rest : Body) :
    (body (i :: rest)).language rs = (item i).language rs * (body rest).language rs := by
  ext w
  rw [Language.mem_mul]
  constructor
  · intro h
    cases h with
    | sequence hi hrest => exact ⟨_, hi, _, hrest, rfl⟩
  · intro hword
    obtain ⟨u, hu, v, hv, rfl⟩ := hword
    exact .sequence hu hv

/-- A row of matches is a word of the iterated language. -/
theorem language_row (x : Singular) :
    (row x).language rs = ((singular x).language rs)∗ := by
  ext w
  rw [Language.mem_kstar]
  constructor
  · intro h
    generalize hp : row x = p at h
    induction h with
    | rowEnd => exact ⟨[], rfl, by simp⟩
    | rowStep h hrest _ ih =>
      obtain ⟨parts, rfl, hparts⟩ := ih hp
      refine ⟨_ :: parts, rfl, ?_⟩
      cases hp
      intro u hu
      rcases List.mem_cons.mp hu with rfl | hu
      · exact h
      · exact hparts u hu
    | _ => cases hp
  · intro hword
    obtain ⟨parts, rfl, hparts⟩ := hword
    induction parts with
    | nil => exact .rowEnd
    | cons u rest ih =>
      rw [List.flatten_cons]
      exact .rowStep (hparts u List.mem_cons_self)
        (ih fun v hv => hparts v (List.mem_cons_of_mem u hv))

theorem language_item (i : Item Singular) :
    (item i).language rs = i.quantifier.language ((singular i.inner).language rs) := by
  obtain ⟨x, q⟩ := i
  ext w
  cases q with
  | one =>
    constructor
    · intro h
      cases h with
      | one h => exact h
    · exact fun h => .one h
  | maybe =>
    simp only [Quantifier.language, Language.mem_add, Language.mem_one]
    constructor
    · intro h
      cases h with
      | absent => exact Or.inr rfl
      | present h => exact Or.inl h
    · intro hword
      rcases hword with h | rfl
      · exact .present h
      · exact .absent
  | any =>
    simp only [Quantifier.language, ← language_row]
    constructor
    · intro h
      cases h with
      | any h => exact h
    · exact fun h => .any h
  | many =>
    simp only [Quantifier.language, ← language_row, Language.mem_mul]
    constructor
    · intro h
      cases h with
      | many h hrest => exact ⟨_, h, _, hrest, rfl⟩
    · intro hword
      obtain ⟨u, hu, v, hv, rfl⟩ := hword
      exact .many hu hv

theorem language_group (alternatives : Alternation) :
    (singular (.group alternatives)).language rs = (choice alternatives).language rs := by
  ext w
  constructor
  · intro h
    cases h with
    | group h => exact h
  · exact fun h => .group h

theorem language_symbol (name : Text) (span : Span) :
    (singular (.symbol name span)).language rs = (rule name).language rs := by
  ext w
  constructor
  · intro h
    cases h with
    | symbol h => exact h
  · exact fun h => .symbol h

theorem language_literal (source : Text) (matchers : List Matcher) (span : Span) :
    (singular (.literal source matchers span)).language rs =
      (matchers.map Matcher.language).prod := by
  ext w
  have hword : Word rs (.singular (.literal source matchers span)) w ↔
      List.Forall₂ (fun m c => m.accepts c = true) matchers w := by
    constructor
    · intro h
      cases h with
      | literal h => exact h
    · exact fun h => .literal h
  rw [mem_language, hword]
  clear hword
  induction matchers generalizing w with
  | nil => rw [List.forall₂_nil_left_iff, List.map_nil, List.prod_nil, Language.mem_one]
  | cons m rest ih =>
    rw [List.map_cons, List.prod_cons, Language.mem_mul, List.forall₂_cons_left_iff]
    constructor
    · intro hword
      obtain ⟨c, v, hm, hrest, rfl⟩ := hword
      exact ⟨[c], ⟨c, hm, rfl⟩, v, (ih v).mp hrest, rfl⟩
    · intro hword
      obtain ⟨u, ⟨c, hm, rfl⟩, v, hv, rfl⟩ := hword
      exact ⟨c, v, hm, (ih v).mpr hv, rfl⟩

theorem language_charset (source : Text) (m : Matcher) (span : Span) :
    (singular (.charset source m span)).language rs = m.language := by
  ext w
  constructor
  · intro h
    cases h with
    | charset h => exact ⟨_, h, rfl⟩
  · intro hword
    obtain ⟨c, hc, rfl⟩ := hword
    exact .charset hc

end Phrase

end GrammarKit
