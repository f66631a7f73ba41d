import GrammarKit.Proofs.Automaton.Fragment
import GrammarKit.Proofs.Effect

/-!
The builder follows the structure of a rule, and each of its steps adds a fragment of the language
of the part that it builds. Main statement: the automaton of a rule has a path from start to
accept for the words of the rule, and for no others.
-/
namespace GrammarKit.Automaton

open scoped Computability

namespace Build

theorem exists_of_run_bind {α β : Type} {x : Build α} {f : α → Build β} {edges edges' : Wiring}
    {b : β} (h : (x >>= f).run edges = .ok (b, edges')) :
    ∃ a middle, x.run edges = .ok (a, middle) ∧ (f a).run middle = .ok (b, edges') := by
  rw [StateT.run_bind] at h
  obtain ⟨⟨a, middle⟩, hx, hf⟩ := exists_of_bind_eq_ok h
  exact ⟨a, middle, hx, hf⟩

theorem run_addState (edges : Wiring) : addState.run edges = .ok (edges.size, edges.push []) := rfl

theorem run_addEdge (source target : Nat) (matcher : Option Matcher) (edges : Wiring) :
    (addEdge source target matcher).run edges =
      .ok ((), edges.modify source (· ++ [⟨matcher, target⟩])) := rfl

/-- What builds a fragment of a language between any two states, whenever it comes to an end. -/
def Builds (x : Nat → Nat → Build Unit) (l : Language CodePoint) : Prop :=
  ∀ ⦃source target : Nat⦄ ⦃edges edges' : Wiring⦄, source < edges.size → target < edges.size →
    Bounded edges → (x source target).run edges = .ok ((), edges') →
    Connects edges edges' source target l

theorem addEdge_builds (matcher : Option Matcher) :
    Builds (fun source target => addEdge source target matcher)
      (Edge.language ⟨matcher, 0⟩) := by
  intro source target edges edges' hsource htarget hb h
  rw [run_addEdge] at h
  cases h
  exact Connects.edge hb hsource htarget

theorem chain_builds {matchers : List Matcher} (hne : matchers ≠ []) :
    Builds (fun source target => chain source target matchers)
      (matchers.map Matcher.language).prod := by
  induction matchers with
  | nil => exact absurd rfl hne
  | cons m rest ih =>
    intro source target edges edges' hsource htarget hb h
    rw [List.map_cons, List.prod_cons]
    cases rest with
    | nil =>
      rw [List.map_nil, List.prod_nil, mul_one]
      exact addEdge_builds (some m) hsource htarget hb h
    | cons m' rest =>
      obtain ⟨middle, edges₁, hstate, h⟩ := exists_of_run_bind h
      rw [run_addState] at hstate
      cases hstate
      obtain ⟨⟨⟩, edges₂, hedge, h⟩ := exists_of_run_bind h
      have hsize : (edges.push []).size = edges.size + 1 := Array.size_push ..
      have hfirst := addEdge_builds (some m) (by omega) (by omega) hb.push hedge
      have hsize' := hfirst.size_le
      have hrest := ih (by simp) (by omega) (by omega) hfirst.bounded h
      exact Connects.sequence hb hfirst hrest hsource htarget

theorem loop_run {part : Nat → Nat → Build Unit} {source target first : Nat}
    {edges edges' : Wiring} (h : (loop part source target).run edges = .ok (first, edges')) :
    ∃ edges₁, (part edges.size (edges.size + 1)).run (Connects.loopStart edges source) =
        .ok ((), edges₁) ∧ first = edges.size ∧
      edges' = Connects.loopEnd edges₁ edges.size (edges.size + 1) target := by
  have hsize : (edges.push []).size = edges.size + 1 := Array.size_push ..
  obtain ⟨state, middle, hstate, h⟩ := exists_of_run_bind h
  rw [run_addState] at hstate
  cases hstate
  obtain ⟨state, middle, hstate, h⟩ := exists_of_run_bind h
  rw [run_addState] at hstate
  cases hstate
  obtain ⟨⟨⟩, middle, hedge, h⟩ := exists_of_run_bind h
  rw [run_addEdge] at hedge
  cases hedge
  obtain ⟨⟨⟩, edges₁, hpart, h⟩ := exists_of_run_bind h
  obtain ⟨⟨⟩, middle, hedge, h⟩ := exists_of_run_bind h
  rw [run_addEdge] at hedge
  cases hedge
  obtain ⟨⟨⟩, middle, hedge, h⟩ := exists_of_run_bind h
  rw [run_addEdge] at hedge
  cases hedge
  cases h
  rw [hsize] at hpart
  exact ⟨edges₁, hpart, rfl, by rw [hsize, Connects.loopEnd]⟩

/-- What a part builds inside of a loop. -/
theorem loop_connects {part : Nat → Nat → Build Unit} {l : Language CodePoint}
    (hpart : Builds part l) {source : Nat} {edges edges₁ : Wiring} (hsource : source < edges.size)
    (hb : Bounded edges)
    (h : (part edges.size (edges.size + 1)).run (Connects.loopStart edges source) =
      .ok ((), edges₁)) :
    Connects (Connects.loopStart edges source) edges₁ edges.size (edges.size + 1) l := by
  have hsize : (Connects.loopStart edges source).size = edges.size + 2 := by
    simp [Connects.loopStart]
  refine hpart (by omega) (by omega) (hb.push.push.modify ?_ ?_) h
  · simp only [Array.size_push]
    omega
  · simp only [Array.size_push]
    omega

theorem quantified_builds {part : Nat → Nat → Build Unit} {l : Language CodePoint}
    (hpart : Builds part l) (q : Quantifier) : Builds (quantified q part) (q.language l) := by
  intro source target edges edges' hsource htarget hb h
  cases q with
  | one => exact hpart hsource htarget hb h
  | maybe =>
    obtain ⟨⟨⟩, edges₁, hp, h⟩ := exists_of_run_bind h
    have hfirst := hpart hsource htarget hb hp
    have hsize := hfirst.size_le
    have hskip := addEdge_builds none (by omega) (by omega) hfirst.bounded h
    exact hfirst.union hskip hsource htarget
  | any =>
    obtain ⟨first, edges₁, hloop, h⟩ := exists_of_run_bind h
    obtain ⟨edges₂, hp, rfl, rfl⟩ := loop_run hloop
    rw [run_addEdge] at h
    cases h
    exact Connects.loop_any hb hsource htarget (loop_connects hpart hsource hb hp)
  | many =>
    obtain ⟨first, edges₁, hloop, h⟩ := exists_of_run_bind h
    obtain ⟨edges₂, hp, rfl, rfl⟩ := loop_run hloop
    cases h
    exact Connects.loop_many hb hsource htarget (loop_connects hpart hsource hb hp)

/-- The rules that a part names are built as their languages. -/
def Inlines (rs : RuleSet) (inline : Text → Nat → Nat → Build Unit) : Prop :=
  ∀ name, Builds (inline name) ((Phrase.rule name).language rs)

section Parts

variable {rs : RuleSet} {inline : Text → Nat → Nat → Build Unit}

mutual

theorem singular_builds (hinline : Inlines rs inline) : ∀ (x : Singular),
    x.all Singular.hasMatchers = true →
    Builds (singular inline x) ((Phrase.singular x).language rs)
  | .group alternatives, hfilled => by
    rw [Phrase.language_group]
    simp only [Singular.all] at hfilled
    simpa only [singular] using alternation_builds hinline alternatives hfilled
  | .symbol name span, _ => by
    rw [Phrase.language_symbol]
    simpa only [singular] using hinline name
  | .literal source matchers span, hfilled => by
    rw [Phrase.language_literal]
    have hne : matchers ≠ [] := by
      rintro rfl
      simp [Singular.all, Singular.hasMatchers] at hfilled
    simpa only [singular] using chain_builds hne
  | .charset source m span, _ => by
    rw [Phrase.language_charset]
    simp only [singular]
    exact addEdge_builds (some m)

theorem alternation_builds (hinline : Inlines rs inline) :
    ∀ (alternatives : List (Alternative (Item Singular))),
    Alternation.all Singular.hasMatchers alternatives = true →
    Builds (alternation inline alternatives) ((Phrase.choice alternatives).language rs)
  | [], _ => by
    intro source target edges edges' hsource htarget hb h
    rw [Phrase.language_choice_nil]
    cases h
    exact Connects.nothing hb
  | a :: rest, hfilled => by
    intro source target edges edges' hsource htarget hb h
    rw [Phrase.language_choice_cons]
    simp only [Alternation.all, Bool.and_eq_true] at hfilled
    simp only [alternation] at h
    obtain ⟨⟨⟩, edges₁, hfirst, h⟩ := exists_of_run_bind h
    have h₁ := alternative_builds hinline a hfilled.1 hsource htarget hb hfirst
    have hsize := h₁.size_le
    have h₂ := alternation_builds hinline rest hfilled.2 (by omega) (by omega) h₁.bounded h
    exact h₁.union h₂ hsource htarget

theorem alternative_builds (hinline : Inlines rs inline) : ∀ (a : Alternative (Item Singular)),
    Alternative.all Singular.hasMatchers a = true →
    Builds (alternative inline a) ((Phrase.body a.body).language rs)
  | ⟨doc, name, items, span⟩, hfilled => by
    simp only [Alternative.all] at hfilled
    simpa only [alternative] using body_builds hinline items hfilled

theorem body_builds (hinline : Inlines rs inline) : ∀ (items : List (Item Singular)),
    Body.all Singular.hasMatchers items = true →
    Builds (body inline items) ((Phrase.body items).language rs)
  | [], _ => by
    rw [Phrase.language_body_nil]
    simp only [body]
    exact addEdge_builds none
  | i :: rest, hfilled => by
    intro source target edges edges' hsource htarget hb h
    rw [Phrase.language_body_cons]
    simp only [Body.all, Bool.and_eq_true] at hfilled
    simp only [body] at h
    obtain ⟨middle, edges₁, hstate, h⟩ := exists_of_run_bind h
    rw [run_addState] at hstate
    cases hstate
    obtain ⟨⟨⟩, edges₂, hfirst, h⟩ := exists_of_run_bind h
    have hsize : (edges.push []).size = edges.size + 1 := Array.size_push ..
    have h₁ := item_builds hinline i hfilled.1 (by omega) (by omega) hb.push hfirst
    have hsize' := h₁.size_le
    have h₂ := body_builds hinline rest hfilled.2 (by omega) (by omega) h₁.bounded h
    exact Connects.sequence hb h₁ h₂ hsource htarget

theorem item_builds (hinline : Inlines rs inline) : ∀ (i : Item Singular),
    Item.all Singular.hasMatchers i = true →
    Builds (item inline i) ((Phrase.item i).language rs)
  | ⟨inner, q⟩, hfilled => by
    rw [Phrase.language_item]
    simp only [Item.all] at hfilled
    simpa only [item] using quantified_builds (singular_builds hinline inner hfilled) q

end

end Parts

/-- However deep the rules are nested, the rule of a name is built as its language. -/
theorem rule_builds {rs : RuleSet} (hfilled : rs.LiteralsFilled) (depth : Nat) :
    ∀ inside : List Text, Inlines rs (rule rs depth inside) := by
  induction depth with
  | zero =>
    intro inside name source target edges edges' hsource htarget hb h
    cases h
  | succ depth ih =>
    intro inside name source target edges edges' hsource htarget hb h
    simp only [rule] at h
    split at h
    · cases h
    · next r hget =>
      split at h
      · cases h
      · rw [Phrase.language_rule hget]
        exact alternation_builds (ih (name :: inside)) r.alternatives
          (hfilled r (RuleSet.mem_of_get? hget)) hsource htarget hb h

end Build

/-- The automaton of a rule is a fragment of its language, from start to accept. -/
theorem connects_of_ofRule {rs : RuleSet} (hfilled : rs.LiteralsFilled) {name : Text}
    {a : Automaton} (h : ofRule rs name = .ok a) :
    Connects #[[], []] a.edges start accept ((Phrase.rule name).language rs) := by
  have hb : Bounded #[[], []] := by
    intro q e he
    have hq := lt_size_of_mem_leaving he
    have hempty : leaving #[[], []] q = [] := by
      match q, hq with
      | 0, _ => rfl
      | 1, _ => rfl
    rw [hempty] at he
    cases he
  unfold ofRule at h
  obtain ⟨p, hrun, hdone⟩ := exists_of_bind_eq_ok h
  cases hdone
  exact Build.rule_builds hfilled (rs.size + 1) [] name (by decide) (by decide) hb hrun

/-- An automaton reads exactly the words of its rule. -/
theorem path_iff_word {rs : RuleSet} (hfilled : rs.LiteralsFilled) {name : Text} {a : Automaton}
    (h : ofRule rs name = .ok a) (w : List CodePoint) :
    Path a.edges start w accept ↔ Word rs (.rule name) w := by
  have hc := connects_of_ofRule hfilled h
  constructor
  · intro hpath
    -- At first the start has the words of the rule, and accept has the empty word.
    let label : Nat → Language CodePoint :=
      fun q => if q = start then (Phrase.rule name).language rs else 1
    have hr : Respects label #[[], []] := by
      intro q e he
      have hq := lt_size_of_mem_leaving he
      match q, hq with
      | 0, _ => cases he
      | 1, _ => cases he
    have hle : (Phrase.rule name).language rs * label accept ≤ label start := by
      simp [label, start, accept]
    obtain ⟨label', hsame, hr'⟩ := hc.label label hr hle
    have haccept : [] ∈ label' accept := by
      rw [hsame accept (by decide)]
      simp [label, start, accept]
    have hmem := hr'.append_mem hpath haccept
    rw [List.append_nil, hsame start (by decide)] at hmem
    exact hmem
  · exact fun hw => hc.path w hw

end GrammarKit.Automaton
