import GrammarKit.Proofs.Grammar.Compiled

/-!
Tags of alternatives. Tagging the alternatives of a production goes through only if all tags are
different, whether they are names from the source or were made for their positions. So the tag of a
node says which alternative made it.
-/
namespace GrammarKit

namespace Variant

variable {rule : Text}

/-- The variants are those of the alternatives, one by one. -/
theorem getElem?_of_tagFrom {alternatives : Alternation} :
    ∀ {index : Nat} {seen : List Text} {variants : List Variant},
      tagFrom rule index seen alternatives = .ok variants → ∀ j : Nat,
        variants[j]? = alternatives[j]?.map fun a => ofAlternative rule a (index + j) := by
  induction alternatives with
  | nil =>
    intro index seen variants h j
    cases h
    rfl
  | cons a rest ih =>
    intro index seen variants h j
    simp only [tagFrom] at h
    split at h
    · cases h
    · obtain ⟨others, hothers, h⟩ := exists_of_bind_eq_ok h
      cases h
      cases j with
      | zero => rfl
      | succ j =>
        rw [List.getElem?_cons_succ, List.getElem?_cons_succ, ih hothers j]
        have hindex : index + 1 + j = index + (j + 1) := by omega
        rw [hindex]

/-- No tag stands twice, and none is among those that were there before. -/
theorem nodup_of_tagFrom {alternatives : Alternation} :
    ∀ {index : Nat} {seen : List Text} {variants : List Variant},
      tagFrom rule index seen alternatives = .ok variants →
        (variants.map tag).Nodup ∧ ∀ v ∈ variants, v.tag ∉ seen := by
  induction alternatives with
  | nil =>
    intro index seen variants h
    cases h
    exact ⟨.nil, by simp⟩
  | cons a rest ih =>
    intro index seen variants h
    simp only [tagFrom] at h
    split at h
    · cases h
    · next hnew =>
      obtain ⟨others, hothers, h⟩ := exists_of_bind_eq_ok h
      cases h
      obtain ⟨hnodup, hseen⟩ := ih hothers
      refine ⟨?_, ?_⟩
      · rw [List.map_cons, List.nodup_cons]
        refine ⟨fun hmem => ?_, hnodup⟩
        obtain ⟨v, hv, heq⟩ := List.mem_map.mp hmem
        exact hseen v hv (heq ▸ List.mem_cons_self)
      · intro v hv
        rcases List.mem_cons.mp hv with rfl | hv
        · exact hnew
        · exact fun hmem => hseen v hv (List.mem_cons_of_mem _ hmem)

/-- Tags that are all different and new go through. -/
theorem tagFrom_eq_ok {alternatives : Alternation} :
    ∀ (index : Nat) (seen : List Text),
      ((alternatives.zipIdx index).map fun (a, i) => a.tag rule i).Nodup →
      (∀ tag ∈ (alternatives.zipIdx index).map fun (a, i) => a.tag rule i, tag ∉ seen) →
      tagFrom rule index seen alternatives =
        .ok ((alternatives.zipIdx index).map fun (a, i) => ofAlternative rule a i) := by
  induction alternatives with
  | nil => exact fun _ _ _ _ => rfl
  | cons a rest ih =>
    intro index seen hnodup hseen
    simp only [List.zipIdx_cons, List.map_cons, List.nodup_cons] at hnodup
    simp only [List.zipIdx_cons, List.map_cons, List.forall_mem_cons] at hseen
    have hothers := ih (index + 1) (a.tag rule index :: seen) hnodup.2 fun tag htag hmem => by
      rcases List.mem_cons.mp hmem with heq | hmem
      · exact hnodup.1 (heq ▸ htag)
      · exact hseen.2 tag htag hmem
    have hnew : (ofAlternative rule a index).tag ∉ seen := hseen.1
    simp only [tagFrom, if_neg hnew, List.zipIdx_cons, List.map_cons]
    exact congrArg (· >>= fun others => .ok (ofAlternative rule a index :: others)) hothers

end Variant

namespace VariantTable

variable {rs : RuleSet} {table : VariantTable}

/-- The table has the variants of each production. -/
theorem exists_get? (h : ofRules rs = .ok table) {r : Rule} (hr : r ∈ rs.productions) :
    ∃ t, table.get? r.name = some t ∧
      Variant.tagFrom r.name 0 [] r.alternatives = .ok t.variants := by
  have hnodup : (table.nodeTypes.map NodeType.rule).Nodup := by
    rw [rule_nodeTypes h]
    exact (List.filter_sublist.map Rule.name).nodup rs.nodup
  unfold ofRules at h
  obtain ⟨types, hrun, h⟩ := exists_of_bind_eq_ok h
  cases h
  obtain ⟨t, ht, htype⟩ := exists_right_of_forall₂ (forall₂_of_mapM hrun) hr
  obtain ⟨variants, hvariants, htype⟩ := exists_of_bind_eq_ok htype
  cases htype
  exact ⟨_, find?_name_eq_some hnodup ht, hvariants⟩

variable {r : Rule} {i j : Nat} {a b : Alternative (Item Singular)}

/-- The table gives each alternative of a production its tag. -/
theorem tag_eq (h : ofRules rs = .ok table) (hr : r ∈ rs.productions)
    (ha : r.alternatives[i]? = some a) : table.tag r.name i = a.tag r.name i := by
  obtain ⟨t, hget, htag⟩ := exists_get? h hr
  have hvariant := Variant.getElem?_of_tagFrom htag i
  rw [ha, Option.map_some, Nat.zero_add] at hvariant
  have hnonneg : ¬ (i : Int) < 0 := by omega
  rw [tag, variant?, if_neg hnonneg, hget, Option.bind_some, Int.toNat_natCast, hvariant]
  rfl

/-- Different alternatives of a production have different tags. -/
theorem tag_injective (h : ofRules rs = .ok table) (hr : r ∈ rs.productions)
    (ha : r.alternatives[i]? = some a) (hb : r.alternatives[j]? = some b)
    (heq : a.tag r.name i = b.tag r.name j) : i = j := by
  obtain ⟨t, -, htag⟩ := exists_get? h hr
  have hfirst := Variant.getElem?_of_tagFrom htag i
  have hsecond := Variant.getElem?_of_tagFrom htag j
  rw [ha, Option.map_some, Nat.zero_add] at hfirst
  rw [hb, Option.map_some, Nat.zero_add] at hsecond
  have hlength : i < (t.variants.map Variant.tag).length := by
    rw [List.length_map]
    exact (List.getElem?_eq_some_iff.mp hfirst).1
  refine (List.getElem?_inj hlength (Variant.nodup_of_tagFrom htag).1).mp ?_
  rw [List.getElem?_map, List.getElem?_map, hfirst, hsecond]
  exact congrArg some heq

end VariantTable

/-- Rules beside a table that gives each alternative of a production its own tag. -/
structure RuleSet.Tagged (rs : RuleSet) (table : VariantTable) : Prop extends rs.Sound where
  tag_eq : ∀ {r : Rule} {i : Nat} {a : Alternative (Item Singular)}, r ∈ rs.productions →
    r.alternatives[i]? = some a → table.tag r.name i = a.tag r.name i

theorem Grammar.Compiled.tagged {g : Grammar} (hg : g.Compiled) :
    g.parser.rules.Tagged g.parser.variants := by
  rw [hg.parserRules, hg.parserVariants]
  exact ⟨hg.rules, fun hr ha => VariantTable.tag_eq hg.variants hr ha⟩

end GrammarKit
