import GrammarKit.Proofs.Rule.Within

/-!
The automaton of a rule is a matter of the rules that it leads to, and of what these say. Where they
stand does not count, nor what other rules there are. Main statement: a rule has the same automaton
in every set that has its set within it.
-/
namespace GrammarKit.Automaton

namespace Build

mutual

/-- Spans leave no trace in an automaton. -/
theorem singular_bare (inline : Text → Nat → Nat → Build Unit) : ∀ x : Singular,
    singular inline x.bare = singular inline x
  | .group alternatives => by
    funext source target
    simp only [Singular.bare, singular, alternation_bare inline alternatives]
  | .symbol name _ | .literal _ matchers _ | .charset _ matcher _ => by
    funext source target
    simp only [Singular.bare, singular]

theorem alternation_bare (inline : Text → Nat → Nat → Build Unit) :
    ∀ alternatives : List (Alternative (Item Singular)),
    alternation inline (Alternation.bare alternatives) = alternation inline alternatives
  | [] => by simp only [Alternation.bare]
  | a :: rest => by
    funext source target
    simp only [Alternation.bare, alternation, alternative_bare inline a,
      alternation_bare inline rest]

theorem alternative_bare (inline : Text → Nat → Nat → Build Unit) :
    ∀ a : Alternative (Item Singular),
    alternative inline (Alternative.bare a) = alternative inline a
  | ⟨_, _, items, _⟩ => by
    funext source target
    simp only [Alternative.bare, alternative, body_bare inline items]

theorem body_bare (inline : Text → Nat → Nat → Build Unit) : ∀ items : List (Item Singular),
    body inline (Body.bare items) = body inline items
  | [] => by simp only [Body.bare]
  | i :: rest => by
    funext source target
    simp only [Body.bare, body, item_bare inline i, body_bare inline rest]

theorem item_bare (inline : Text → Nat → Nat → Build Unit) : ∀ i : Item Singular,
    item inline (Item.bare i) = item inline i
  | ⟨inner, quantifier⟩ => by
    funext source target
    simp only [Item.bare, item, singular_bare inline inner]

end

section Parts

variable {inline inline' : Text → Nat → Nat → Build Unit}

mutual

/-- A part is built in the same way, if the rules that it names are. -/
theorem singular_congr : ∀ x : Singular,
    (∀ r ∈ x.references, inline' r.name = inline r.name) → singular inline' x = singular inline x
  | .group alternatives, h => by
    simp only [Singular.references] at h
    funext source target
    simp only [singular, alternation_congr alternatives h]
  | .symbol name span, h => by
    simp only [Singular.references, List.mem_singleton, forall_eq] at h
    funext source target
    simp only [singular, h]
  | .literal _ matchers _, _ | .charset _ matcher _, _ => by
    funext source target
    simp only [singular]

theorem alternation_congr : ∀ alternatives : List (Alternative (Item Singular)),
    (∀ r ∈ Alternation.references alternatives, inline' r.name = inline r.name) →
    alternation inline' alternatives = alternation inline alternatives
  | [], _ => by
    funext source target
    simp only [alternation]
  | a :: rest, h => by
    simp only [Alternation.references, List.forall_mem_append] at h
    funext source target
    simp only [alternation, alternative_congr a h.1, alternation_congr rest h.2]

theorem alternative_congr : ∀ a : Alternative (Item Singular),
    (∀ r ∈ Alternative.references a, inline' r.name = inline r.name) →
    alternative inline' a = alternative inline a
  | ⟨_, _, items, _⟩, h => by
    simp only [Alternative.references] at h
    funext source target
    simp only [alternative, body_congr items h]

theorem body_congr : ∀ items : List (Item Singular),
    (∀ r ∈ Body.references items, inline' r.name = inline r.name) →
    body inline' items = body inline items
  | [], _ => by
    funext source target
    simp only [body]
  | i :: rest, h => by
    simp only [Body.references, List.forall_mem_append] at h
    funext source target
    simp only [body, item_congr i h.1, body_congr rest h.2]

theorem item_congr : ∀ i : Item Singular,
    (∀ r ∈ Item.references i, inline' r.name = inline r.name) → item inline' i = item inline i
  | ⟨inner, quantifier⟩, h => by
    simp only [Item.references] at h
    funext source target
    simp only [item, singular_congr inner h]

end

end Parts

/-- Along the order of the rules each rule is built in the same way, with any depth that does not
run out. -/
theorem rule_within {spare : List Text} {rs rs' : RuleSet} (h : rs.Within spare rs')
    (hrs : rs.Resolved) {done : List Text} (hordered : Vocabulary.Ordered rs done) :
    ∀ name ∈ done, ∀ depth depth' inside, done.length ≤ depth → done.length ≤ depth' →
      rule rs' depth' inside name = rule rs depth inside name := by
  induction hordered with
  | nil => simp
  | @cons r done hr hnew htargets hrest ih =>
    obtain ⟨hr, hlexical⟩ := List.mem_filter.mp hr
    intro name hname depth depth' inside hdepth hdepth'
    rw [List.length_cons] at hdepth hdepth'
    rcases List.mem_cons.mp hname with rfl | hname
    · obtain ⟨depth, rfl⟩ : ∃ d, depth = d + 1 := ⟨depth - 1, by omega⟩
      obtain ⟨depth', rfl⟩ : ∃ d, depth' = d + 1 := ⟨depth' - 1, by omega⟩
      obtain ⟨r', hget', hcontent⟩ := h.exists_get? (RuleSet.get?_of_mem hr)
      -- What the rule refers to comes later in the order, where one step less is enough.
      have hsame : ∀ x ∈ r.references, rule rs' depth' (r.name :: inside) x.name =
          rule rs depth (r.name :: inside) x.name := by
        intro x hx
        obtain ⟨t, hget, hkind⟩ := hrs.target r hr x hx
        have hmem : t ∈ Vocabulary.lexicalTargets rs r :=
          List.mem_filter.mpr ⟨List.mem_filterMap.mpr ⟨x, hx, hget⟩, hkind hlexical⟩
        have hx : x.name ∈ done := RuleSet.get?_name hget ▸ htargets t hmem
        exact ih x.name hx depth depth' (r.name :: inside) (by omega) (by omega)
      have hbody : alternation (rule rs' depth' (r.name :: inside)) r'.alternatives =
          alternation (rule rs depth (r.name :: inside)) r.alternatives := by
        rw [← alternation_bare, (Rule.content_eq_iff.mp hcontent).2.2.1, alternation_bare,
          alternation_congr r.alternatives hsame]
      funext source target
      simp only [rule, hget', RuleSet.get?_of_mem hr, hbody]
    · exact ih name hname depth depth' inside (by omega) (by omega)

end Build

/-- Rules of characters have the same automata. -/
theorem ofRule_within {spare : List Text} {rs rs' : RuleSet} (h : rs.Within spare rs')
    (hrs : rs.Sound) {r : Rule} (hr : r ∈ rs.rules) (hlexical : r.isLexical = true) :
    ofRule rs' r.name = ofRule rs r.name := by
  obtain ⟨done, hordered, hall⟩ := Vocabulary.exists_ordered_of_cycle? hrs.acyclic
  have hlength := RuleSet.length_le_size hordered.nodup hordered.subset_names
  have hsize := h.size_le
  have hsame := Build.rule_within h hrs.resolved hordered r.name (hall r hr hlexical)
    (rs.size + 1) (rs'.size + 1) [] (by omega) (by omega)
  rw [ofRule, ofRule, hsame]

end GrammarKit.Automaton
