import GrammarKit.Proofs.Rule.Registry

/-!
The search for cycles among token rules. A search that finds none leaves all token and whitespace
rules in an order in which every rule refers to later ones only. Building the automaton of a rule
goes down along this order, so it never meets a rule that is being built and never runs out of
depth. Main statement: without a cycle every such rule has an automaton.
-/
namespace GrammarKit

namespace RuleSet

/-- A row of different names of rules is no longer than there are rules. -/
theorem length_le_size {rs : RuleSet} {names : List Text} (hnodup : names.Nodup)
    (hsub : names ⊆ rs.names) : names.length ≤ rs.size := by
  have h := hnodup.length_le_of_subset hsub
  rwa [RuleSet.names, List.length_map] at h

end RuleSet

namespace Vocabulary

theorem mem_lexicalTargets {rs : RuleSet} {r t : Rule} (h : t ∈ lexicalTargets rs r) :
    t ∈ rs.rules.filter Rule.isLexical := by
  obtain ⟨hmem, hlexical⟩ := List.mem_filter.mp h
  obtain ⟨x, -, hget⟩ := List.mem_filterMap.mp hmem
  exact List.mem_filter.mpr ⟨RuleSet.mem_of_get? hget, hlexical⟩

/-- Token and whitespace rules by name, each before all such rules that it refers to. -/
inductive Ordered (rs : RuleSet) : List Text → Prop where
  | nil : Ordered rs []
  | cons {r : Rule} {done : List Text} (hr : r ∈ rs.rules.filter Rule.isLexical)
      (hnew : r.name ∉ done)
      (htargets : ∀ t ∈ lexicalTargets rs r, t.name ∈ done) (rest : Ordered rs done) :
      Ordered rs (r.name :: done)

namespace Ordered

variable {rs : RuleSet} {done : List Text}

theorem nodup (h : Ordered rs done) : done.Nodup := by
  induction h with
  | nil => exact List.nodup_nil
  | cons _ hnew _ _ ih => exact List.nodup_cons.mpr ⟨hnew, ih⟩

theorem subset_names (h : Ordered rs done) : done ⊆ rs.names := by
  induction h with
  | nil => exact List.nil_subset _
  | cons hr _ _ _ ih =>
    exact List.cons_subset.mpr ⟨List.mem_map_of_mem (List.mem_filter.mp hr).1, ih⟩

end Ordered

/-- What a step of the search makes of the rules that are done while the rules of a path are open:
some more are done, and none of them is open. -/
structure Extends (rs : RuleSet) (path done done' : List Text) : Prop where
  ordered : Ordered rs done'
  subset : done ⊆ done'
  apart : ∀ name ∈ path, name ∉ done'

theorem Extends.trans {rs : RuleSet} {path done done₁ done₂ : List Text}
    (h₁ : Extends rs path done done₁) (h₂ : Extends rs path done₁ done₂) :
    Extends rs path done done₂ :=
  ⟨h₂.ordered, fun _ h => h₂.subset (h₁.subset h), h₂.apart⟩

/-- A path of the search: different rules, as many as the depth has come down. -/
structure Descends (rs : RuleSet) (depth : Nat) (path : List Text) : Prop where
  nodup : path.Nodup
  subset : path ⊆ rs.names
  depth_eq : depth + path.length = rs.size + 1

theorem Descends.snoc {rs : RuleSet} {depth : Nat} {path : List Text}
    (h : Descends rs (depth + 1) path) {r : Rule} (hr : r ∈ rs.rules) (hnew : r.name ∉ path) :
    Descends rs depth (path ++ [r.name]) := by
  refine ⟨?_, ?_, ?_⟩
  · refine List.nodup_append.mpr ⟨h.nodup, by simp, ?_⟩
    rintro a ha b hb rfl
    rw [List.mem_singleton] at hb
    exact hnew (hb ▸ ha)
  · refine List.append_subset.mpr ⟨h.subset, ?_⟩
    exact List.cons_subset.mpr ⟨List.mem_map_of_mem hr, List.nil_subset _⟩
  · have hdepth := h.depth_eq
    rw [List.length_append, List.length_singleton]
    omega

/-- Visiting a row of rules, if visiting one of them does what it should. -/
theorem foldlM_extends {rs : RuleSet} {path : List Text}
    {step : List Text → Rule → Except (List Text) (List Text)}
    (hstep : ∀ done r done', r ∈ rs.rules.filter Rule.isLexical → Extends rs path done done →
      step done r = .ok done' → Extends rs path done done' ∧ r.name ∈ done')
    (l : List Rule) (hl : ∀ r ∈ l, r ∈ rs.rules.filter Rule.isLexical) :
    ∀ {done done'}, Extends rs path done done → l.foldlM step done = .ok done' →
      Extends rs path done done' ∧ ∀ r ∈ l, r.name ∈ done' := by
  induction l with
  | nil =>
    intro done done' hdone hfold
    cases hfold
    exact ⟨hdone, by simp⟩
  | cons r rest ih =>
    intro done done' hdone hfold
    rw [List.foldlM_cons] at hfold
    obtain ⟨done₁, hfirst, hfold⟩ := exists_of_bind_eq_ok hfold
    obtain ⟨h₁, hr⟩ := hstep done r done₁ (hl r List.mem_cons_self) hdone hfirst
    have hdone₁ : Extends rs path done₁ done₁ := ⟨h₁.ordered, fun _ h => h, h₁.apart⟩
    obtain ⟨h₂, hrest⟩ := ih (fun r hr => hl r (List.mem_cons_of_mem _ hr)) hdone₁ hfold
    refine ⟨h₁.trans h₂, ?_⟩
    intro other hother
    rcases List.mem_cons.mp hother with rfl | hother
    · exact h₂.subset hr
    · exact hrest other hother

/-- Visiting a rule finishes it. -/
theorem visit_extends {rs : RuleSet} (depth : Nat) :
    ∀ {path : List Text}, Descends rs depth path → ∀ done r done',
      r ∈ rs.rules.filter Rule.isLexical → Extends rs path done done →
      visit rs depth path done r = .ok done' →
      Extends rs path done done' ∧ r.name ∈ done' := by
  induction depth with
  | zero =>
    intro path hpath
    have hlength := RuleSet.length_le_size hpath.nodup hpath.subset
    have hdepth := hpath.depth_eq
    omega
  | succ depth ih =>
    intro path hpath done r done' hr hdone hvisit
    unfold visit at hvisit
    split at hvisit
    · cases hvisit
    · next hopen =>
      split at hvisit
      · next hmem =>
        cases hvisit
        exact ⟨hdone, hmem⟩
      · next hnew =>
        have hinner : Extends rs (path ++ [r.name]) done done := by
          refine ⟨hdone.ordered, fun _ h => h, ?_⟩
          intro name hname
          rcases List.mem_append.mp hname with hname | hname
          · exact hdone.apart name hname
          · rw [List.mem_singleton.mp hname]
            exact hnew
        obtain ⟨done₁, hfold, hdone'⟩ := exists_of_bind_eq_ok hvisit
        cases hdone'
        have hbelow := ih (hpath.snoc (List.mem_filter.mp hr).1 hopen)
        obtain ⟨h₁, htargets⟩ := foldlM_extends hbelow (lexicalTargets rs r)
          (fun t ht => mem_lexicalTargets ht) hinner hfold
        have hlast : r.name ∉ done₁ := h₁.apart r.name (by simp)
        refine ⟨⟨.cons hr hlast htargets h₁.ordered, ?_, ?_⟩, List.mem_cons_self⟩
        · exact fun _ h => List.mem_cons_of_mem _ (h₁.subset h)
        · intro name hname hmem
          rcases List.mem_cons.mp hmem with rfl | hmem
          · exact hopen hname
          · exact h₁.apart name (List.mem_append_left _ hname) hmem

/-- Without a cycle the token and whitespace rules have an order. -/
theorem exists_ordered_of_cycle? {rs : RuleSet} (h : cycle? rs = none) :
    ∃ done, Ordered rs done ∧ ∀ r ∈ rs.rules, r.isLexical → r.name ∈ done := by
  unfold cycle? at h
  split at h
  · cases h
  · next done hfold =>
    have hroot : Descends rs (rs.size + 1) [] :=
      ⟨List.nodup_nil, List.nil_subset _, by simp⟩
    have hstart : Extends rs [] [] [] := ⟨.nil, fun _ h => h, by simp⟩
    obtain ⟨hdone, hall⟩ := foldlM_extends (visit_extends (rs.size + 1) hroot)
      (rs.rules.filter Rule.isLexical) (fun _ h => h) hstart hfold
    exact ⟨done, hdone.ordered, fun r hr hlexical => hall r (List.mem_filter.mpr ⟨hr, hlexical⟩)⟩

end Vocabulary

namespace Automaton

namespace Build

def Total {α : Type} (x : Build α) : Prop := ∀ edges, ∃ a edges', x.run edges = .ok (a, edges')

theorem Total.of_pure {α : Type} (a : α) : Total (pure a : Build α) := fun edges => ⟨a, edges, rfl⟩

theorem Total.bind {α β : Type} {x : Build α} {f : α → Build β} (hx : Total x)
    (hf : ∀ a, Total (f a)) : Total (x >>= f) := by
  intro edges
  obtain ⟨a, edges₁, hrun⟩ := hx edges
  obtain ⟨b, edges₂, hrun'⟩ := hf a edges₁
  refine ⟨b, edges₂, ?_⟩
  rw [StateT.run_bind, hrun]
  exact hrun'

theorem addState_total : Total addState := fun _ => ⟨_, _, rfl⟩

theorem addEdge_total (source target : Nat) (matcher : Option Matcher) :
    Total (addEdge source target matcher) := fun _ => ⟨_, _, rfl⟩

theorem chain_total (target : Nat) (matchers : List Matcher) :
    ∀ source, Total (chain source target matchers) := by
  induction matchers with
  | nil => exact fun source => Total.of_pure ()
  | cons m rest ih =>
    intro source
    cases rest with
    | nil => exact addEdge_total source target (some m)
    | cons n rest =>
      simp only [chain]
      exact addState_total.bind fun middle => (addEdge_total _ _ _).bind fun _ => ih middle

theorem quantified_total {part : Nat → Nat → Build Unit}
    (hpart : ∀ source target, Total (part source target)) (quantifier : Quantifier)
    (source target : Nat) : Total (quantified quantifier part source target) := by
  have hloop : Total (loop part source target) := by
    refine addState_total.bind fun first => addState_total.bind fun last => ?_
    refine (addEdge_total _ _ _).bind fun _ => (hpart first last).bind fun _ => ?_
    refine (addEdge_total _ _ _).bind fun _ => ?_
    exact (addEdge_total _ _ _).bind fun _ => Total.of_pure first
  cases quantifier with
  | one => exact hpart source target
  | maybe => exact (hpart source target).bind fun _ => addEdge_total _ _ _
  | any => exact hloop.bind fun first => addEdge_total _ _ _
  | many => exact hloop.bind fun _ => Total.of_pure ()

section Parts

variable {inline : Text → Nat → Nat → Build Unit}

mutual

theorem singular_total : ∀ (x : Singular),
    (∀ r ∈ x.references, ∀ source target, Total (inline r.name source target)) →
    ∀ source target, Total (singular inline x source target)
  | .group alternatives, hinline, source, target => by
    simp only [Singular.references] at hinline
    simpa only [singular] using alternation_total alternatives hinline source target
  | .symbol name span, hinline, source, target => by
    simpa only [singular] using hinline ⟨name, span⟩ (by simp [Singular.references]) source target
  | .literal text matchers span, _, source, target => by
    simpa only [singular] using chain_total target matchers source
  | .charset text matcher span, _, source, target => by
    simpa only [singular] using addEdge_total source target (some matcher)

theorem alternation_total : ∀ (alternatives : List (Alternative (Item Singular))),
    (∀ r ∈ Alternation.references alternatives, ∀ source target,
      Total (inline r.name source target)) →
    ∀ source target, Total (alternation inline alternatives source target)
  | [], _, source, target => by
    simpa only [alternation] using Total.of_pure ()
  | a :: rest, hinline, source, target => by
    simp only [Alternation.references, List.mem_append] at hinline
    simp only [alternation]
    refine (alternative_total a (fun r hr => hinline r (Or.inl hr)) source target).bind fun _ => ?_
    exact alternation_total rest (fun r hr => hinline r (Or.inr hr)) source target

theorem alternative_total : ∀ (a : Alternative (Item Singular)),
    (∀ r ∈ Alternative.references a, ∀ source target, Total (inline r.name source target)) →
    ∀ source target, Total (alternative inline a source target)
  | ⟨doc, name, items, span⟩, hinline, source, target => by
    simp only [Alternative.references] at hinline
    simpa only [alternative] using body_total items hinline source target

theorem body_total : ∀ (items : List (Item Singular)),
    (∀ r ∈ Body.references items, ∀ source target, Total (inline r.name source target)) →
    ∀ source target, Total (body inline items source target)
  | [], _, source, target => by
    simpa only [body] using addEdge_total source target none
  | i :: rest, hinline, source, target => by
    simp only [Body.references, List.mem_append] at hinline
    simp only [body]
    refine addState_total.bind fun middle => ?_
    refine (item_total i (fun r hr => hinline r (Or.inl hr)) source middle).bind fun _ => ?_
    exact body_total rest (fun r hr => hinline r (Or.inr hr)) middle target

theorem item_total : ∀ (i : Item Singular),
    (∀ r ∈ Item.references i, ∀ source target, Total (inline r.name source target)) →
    ∀ source target, Total (item inline i source target)
  | ⟨inner, quantifier⟩, hinline, source, target => by
    simp only [Item.references] at hinline
    simpa only [item] using
      quantified_total (singular_total inner hinline) quantifier source target

end

end Parts

/-- Along the order of the rules neither the depth nor the names that are new run out. -/
theorem rule_total {rs : RuleSet} (hrs : rs.Resolved) {done : List Text}
    (hordered : Vocabulary.Ordered rs done) :
    ∀ name ∈ done, ∀ depth inside, done.length ≤ depth → (∀ n ∈ inside, n ∉ done) →
      ∀ source target, Total (rule rs depth inside name source target) := by
  induction hordered with
  | nil => simp
  | @cons r done hr hnew htargets hrest ih =>
    obtain ⟨hr, hlexical⟩ := List.mem_filter.mp hr
    intro name hname depth inside hdepth hinside source target
    rw [List.length_cons] at hdepth
    rcases List.mem_cons.mp hname with rfl | hname
    · obtain ⟨depth, rfl⟩ : ∃ d, depth = d + 1 := ⟨depth - 1, by omega⟩
      have hfree : r.name ∉ inside := fun h => hinside _ h List.mem_cons_self
      simp only [rule, RuleSet.get?_of_mem hr, if_neg hfree]
      refine alternation_total r.alternatives (fun x hx => ?_) source target
      obtain ⟨t, hget, hkind⟩ := hrs.target r hr x hx
      have hmem : t ∈ Vocabulary.lexicalTargets rs r := by
        exact List.mem_filter.mpr ⟨List.mem_filterMap.mpr ⟨x, hx, hget⟩, hkind hlexical⟩
      have hx : x.name ∈ done := RuleSet.get?_name hget ▸ htargets t hmem
      refine ih x.name hx depth (r.name :: inside) (by omega) ?_
      intro n hn hmem
      rcases List.mem_cons.mp hn with rfl | hn
      · exact hnew hmem
      · exact hinside n hn (List.mem_cons_of_mem _ hmem)
    · refine ih name hname depth inside (by omega) ?_ source target
      exact fun n hn hmem => hinside n hn (List.mem_cons_of_mem _ hmem)

end Build

/-- Without a cycle every token or whitespace rule has an automaton. -/
theorem exists_ofRule {rs : RuleSet} (hrs : rs.Resolved) (hcycle : Vocabulary.cycle? rs = none)
    {r : Rule} (hr : r ∈ rs.rules) (hlexical : r.isLexical = true) :
    ∃ a, ofRule rs r.name = .ok a := by
  obtain ⟨done, hordered, hall⟩ := Vocabulary.exists_ordered_of_cycle? hcycle
  have hlength := RuleSet.length_le_size hordered.nodup hordered.subset_names
  obtain ⟨⟨⟩, edges, hrun⟩ := Build.rule_total hrs hordered r.name (hall r hr hlexical)
    (rs.size + 1) [] (by omega) (by simp) start accept #[[], []]
  refine ⟨⟨r.name, edges⟩, ?_⟩
  unfold ofRule
  rw [hrun]
  rfl

end Automaton

end GrammarKit
