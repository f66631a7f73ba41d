import GrammarKit.Proofs.Grammar.MaximalMunch
import GrammarKit.Proofs.Rule.Embedding
import GrammarKit.Proofs.Rule.WellFormed

/-!
A set of rules within a larger one. The larger set also has tokens under spare names, and its rules
may stand at other places, but what the rules of the smaller set say is the same in both. Then
productions, white space and real tokens are the same: a spare token is not made for a pattern, and
no production leads to it, because the rules that it leads to are all in the smaller set.
-/
namespace GrammarKit

namespace Rule

def content (r : Rule) : Rule := { r.bare with index := 0 }

variable {r r' : Rule}

theorem content_eq_iff : r.content = r'.content ↔ r.name = r'.name ∧ r.kind = r'.kind ∧
    Alternation.bare r.alternatives = Alternation.bare r'.alternatives ∧ r.doc = r'.doc ∧
    r.synthetic = r'.synthetic := by
  simp only [content, bare, Rule.mk.injEq, true_and, and_true]

theorem names_content (r : Rule) :
    r.content.references.map Reference.name = r.references.map Reference.name :=
  Alternation.references_bare r.alternatives

theorem ofRule_content (r : Rule) : NodeType.ofRule r.content = NodeType.ofRule r := by
  have hvariants : (NodeType.ofRule r.content).variants = (NodeType.ofRule r).variants := by
    simp only [NodeType.ofRule, content, bare, Alternation.bare_eq_map, List.zipIdx_map,
      List.map_map]
    refine List.map_congr_left fun entry _ => ?_
    obtain ⟨⟨doc, name, items, span⟩, i⟩ := entry
    simp only [Function.comp_apply, Prod.map_apply, id_eq, Alternative.bare]
    rfl
  rw [NodeType.mk.injEq]
  exact ⟨rfl, rfl, hvariants⟩

end Rule

/-- Filtering lists that correspond by tests that correspond. -/
theorem map_filter_eq {α β : Type} {f : α → β} {p p' : α → Bool} {l : List α} :
    ∀ {l' : List α}, l'.map f = l.map f → (∀ a ∈ l, ∀ a' ∈ l', f a' = f a → p' a' = p a) →
      (l'.filter p').map f = (l.filter p).map f := by
  induction l with
  | nil =>
    intro l' h _
    rw [List.map_nil, List.map_eq_nil_iff] at h
    rw [h]
    rfl
  | cons a rest ih =>
    intro l' h hp
    obtain ⟨a', rest', rfl, hfirst, hrest⟩ := List.map_eq_cons_iff.mp h
    have htest := hp a List.mem_cons_self a' List.mem_cons_self hfirst
    have hothers := ih hrest fun b hb b' hb' =>
      hp b (List.mem_cons_of_mem a hb) b' (List.mem_cons_of_mem a' hb')
    rw [List.filter_cons, List.filter_cons, htest]
    split
    · rw [List.map_cons, List.map_cons, hfirst, hothers]
    · exact hothers

namespace RuleSet

/-- The rules of the first set, which has no rule of a spare name, are in the second one, in their
order and without others but tokens of spare names. -/
structure Within (spare : List Text) (rs rs' : RuleSet) : Prop where
  whitespaceName : rs'.whitespaceName = rs.whitespaceName
  blank : rs.whitespaceName ∉ spare
  kept : (rs'.rules.filter fun r => decide (r.name ∉ spare)).map Rule.content =
    rs.rules.map Rule.content
  token : ∀ r ∈ rs'.rules, r.name ∈ spare → r.kind = .token ∧ r.synthetic = false

namespace Within

variable {spare : List Text} {rs rs' : RuleSet}

/-- What a test picks from the two sets is the same, if it picks no spare token. -/
theorem filter_content (h : rs.Within spare rs') {p p' : Rule → Bool}
    (hp : ∀ r ∈ rs.rules, ∀ r' ∈ rs'.rules, r'.content = r.content → p' r' = p r)
    (hspare : ∀ r' ∈ rs'.rules, r'.name ∈ spare → p' r' = false) :
    (rs'.rules.filter p').map Rule.content = (rs.rules.filter p).map Rule.content := by
  -- Spare tokens fail the test anyway, so they can be taken out first.
  have hfree : rs'.rules.filter p' =
      (rs'.rules.filter fun r => decide (r.name ∉ spare)).filter p' := by
    rw [List.filter_filter]
    refine List.filter_congr fun r' hr' => ?_
    by_cases hname : r'.name ∈ spare
    · rw [hspare r' hr' hname, Bool.false_and]
    · rw [decide_eq_true hname, Bool.and_true]
  rw [hfree]
  exact map_filter_eq h.kept fun r hr r' hr' => hp r hr r' (List.mem_filter.mp hr').1

theorem name_notMem (h : rs.Within spare rs') {r : Rule} (hr : r ∈ rs.rules) : r.name ∉ spare := by
  have hcontent : r.content ∈ rs.rules.map Rule.content := List.mem_map_of_mem hr
  rw [← h.kept] at hcontent
  obtain ⟨r', hr', heq⟩ := List.mem_map.mp hcontent
  have hfree := of_decide_eq_true (List.mem_filter.mp hr').2
  rwa [(Rule.content_eq_iff.mp heq).1] at hfree

theorem notMem_of_contains (h : rs.Within spare rs') {name : Text}
    (hknown : rs.contains name = true) : name ∉ spare := by
  obtain ⟨r, hget⟩ := Option.isSome_iff_exists.mp hknown
  exact RuleSet.get?_name hget ▸ h.name_notMem (RuleSet.mem_of_get? hget)

theorem get?_content (h : rs.Within spare rs') {name : Text} (hname : name ∉ spare) :
    (rs'.get? name).map Rule.content = (rs.get? name).map Rule.content := by
  have hfilter : (rs'.rules.filter fun r => decide (r.name = name)).map Rule.content =
      (rs.rules.filter fun r => decide (r.name = name)).map Rule.content := by
    refine h.filter_content (fun r _ r' _ hsame => ?_) fun r' _ hspare => ?_
    · rw [(Rule.content_eq_iff.mp hsame).1]
    · exact decide_eq_false fun heq => hname (heq ▸ hspare)
  rw [get?, get?, ← List.head?_filter, ← List.head?_filter, ← List.head?_map, ← List.head?_map,
    hfilter]

/-- A rule of the smaller set has its like in the larger one. -/
theorem exists_get? (h : rs.Within spare rs') {name : Text} {r : Rule}
    (hget : rs.get? name = some r) : ∃ r', rs'.get? name = some r' ∧ r'.content = r.content := by
  have hknown : rs.contains name = true := by rw [contains, hget, Option.isSome_some]
  have hsame := h.get?_content (h.notMem_of_contains hknown)
  rw [hget, Option.map_some] at hsame
  exact Option.map_eq_some_iff.mp hsame

theorem productions_content (h : rs.Within spare rs') :
    rs'.productions.map Rule.content = rs.productions.map Rule.content := by
  refine h.filter_content (fun r _ r' _ hsame => ?_) fun r' hr' hspare => ?_
  · rw [(Rule.content_eq_iff.mp hsame).2.1]
  · rw [(h.token r' hr' hspare).1]
    rfl

theorem isProduction_eq (h : rs.Within spare rs') (name : Text) :
    rs'.isProduction name = rs.isProduction name := by
  by_cases hname : name ∈ spare
  · have hnone : rs.get? name = none := by
      by_contra hsome
      exact h.notMem_of_contains (Option.isSome_iff_ne_none.mpr hsome) hname
    rw [isProduction, isProduction, hnone]
    cases hget : rs'.get? name with
    | none => rfl
    | some r' =>
      have hspare : r'.name ∈ spare := RuleSet.get?_name hget ▸ hname
      rw [Option.any_some, (h.token r' (RuleSet.mem_of_get? hget) hspare).1]
      rfl
  · have hsame := congrArg (Option.any fun r => decide (r.kind = .production))
      (h.get?_content hname)
    rw [Option.any_map, Option.any_map] at hsame
    exact hsame

theorem whitespace_name (h : rs.Within spare rs') :
    rs'.whitespace.map Rule.name = rs.whitespace.map Rule.name := by
  have hsame := h.get?_content h.blank
  rw [whitespace, whitespace, h.whitespaceName]
  cases hget : rs.get? rs.whitespaceName with
  | none =>
    rw [hget, Option.map_none, Option.map_eq_none_iff] at hsame
    rw [hsame]
  | some r =>
    obtain ⟨r', hget', hcontent⟩ := h.exists_get? hget
    obtain ⟨hname, hkind, -⟩ := Rule.content_eq_iff.mp hcontent
    rw [hget', Option.filter_some, Option.filter_some, hkind]
    split
    · exact congrArg some hname
    · rfl

theorem size_le (h : rs.Within spare rs') : rs.size ≤ rs'.size := by
  have hlength := congrArg List.length h.kept
  rw [List.length_map, List.length_map] at hlength
  rw [size, ← hlength]
  exact List.length_filter_le _ _

/-- The tables of variants are the same. -/
theorem nodeTypes_eq (h : rs.Within spare rs') :
    rs'.productions.map NodeType.ofRule = rs.productions.map NodeType.ofRule := by
  have hcontent : ∀ l : List Rule, l.map NodeType.ofRule =
      (l.map Rule.content).map NodeType.ofRule := by
    intro l
    rw [List.map_map]
    exact List.map_congr_left fun r _ => r.ofRule_content.symm
  rw [hcontent, h.productions_content, ← hcontent]

end Within

end RuleSet

namespace Vocabulary

variable {spare : List Text} {rs rs' : RuleSet}

/-- Everything that a token refers to has a rule. -/
theorem contains_of_mem_tokenNames (hrs : rs.Resolved) {a b : Text} (hb : b ∈ tokenNames rs a) :
    rs.contains b = true := by
  unfold tokenNames at hb
  split at hb
  · next r hget =>
    split at hb
    · obtain ⟨x, hx, rfl⟩ := List.mem_map.mp hb
      obtain ⟨target, htarget, -⟩ := hrs.target r (RuleSet.mem_of_get? hget) x hx
      rw [RuleSet.contains, htarget, Option.isSome_some]
    · cases hb
  · cases hb

theorem tokenNames_eq (h : rs.Within spare rs') {name : Text} (hknown : rs.contains name = true) :
    tokenNames rs' name = tokenNames rs name := by
  obtain ⟨r, hget⟩ := Option.isSome_iff_exists.mp hknown
  obtain ⟨r', hget', hcontent⟩ := h.exists_get? hget
  have hnames : r'.references.map Reference.name = r.references.map Reference.name := by
    rw [← Rule.names_content r', hcontent, Rule.names_content]
  simp only [tokenNames, hget, hget', (Rule.content_eq_iff.mp hcontent).2.1, hnames]

/-- Whatever leads on in the larger set from a rule of the smaller one stays in the smaller one. -/
theorem leads_of_leads (h : rs.Within spare rs') (hrs : rs.Resolved) {a b : Text}
    (hleads : (tokenGraph rs').Leads a b) (hknown : rs.contains a = true) :
    (tokenGraph rs).Leads a b ∧ rs.contains b = true := by
  induction hleads with
  | refl a => exact ⟨.refl a, hknown⟩
  | @step a b c hnext _ ih =>
    have hnext : b ∈ tokenNames rs a := tokenNames_eq h hknown ▸ hnext
    obtain ⟨hleads, hc⟩ := ih (contains_of_mem_tokenNames hrs hnext)
    exact ⟨.step hnext hleads, hc⟩

theorem leads_within (h : rs.Within spare rs') (hrs : rs.Resolved) {a b : Text}
    (hleads : (tokenGraph rs).Leads a b) (hknown : rs.contains a = true) :
    (tokenGraph rs').Leads a b := by
  induction hleads with
  | refl a => exact .refl a
  | @step a b c hnext _ ih =>
    have hnext' : b ∈ tokenNames rs' a := (tokenNames_eq h hknown).symm ▸ hnext
    exact .step hnext' (ih (contains_of_mem_tokenNames hrs hnext))

/-- Productions refer to the same names. -/
theorem named_eq (h : rs.Within spare rs') :
    (rs'.productions.flatMap fun r => r.references.map Reference.name) =
      rs.productions.flatMap fun r => r.references.map Reference.name := by
  have hcontent : ∀ l : List Rule, (l.flatMap fun r => r.references.map Reference.name) =
      (l.map Rule.content).flatMap fun r => r.references.map Reference.name := by
    intro l
    simp only [List.flatMap_map, Rule.names_content]
  rw [hcontent, h.productions_content, ← hcontent]

theorem contains_of_named (hrs : rs.Resolved) {name : Text}
    (hname : name ∈ rs.productions.flatMap fun r => r.references.map Reference.name) :
    rs.contains name = true := by
  obtain ⟨r, hr, hname⟩ := List.mem_flatMap.mp hname
  obtain ⟨x, hx, rfl⟩ := List.mem_map.mp hname
  obtain ⟨target, htarget, -⟩ := hrs.target r (List.mem_filter.mp hr).1 x hx
  rw [RuleSet.contains, htarget, Option.isSome_some]

/-- Productions lead to the same names, and to no spare ones. -/
theorem mem_reached_iff (h : rs.Within spare rs') (hrs : rs.Resolved) {name : Text} :
    name ∈ reached rs' ↔ name ∈ reached rs := by
  rw [reached, reached, Graph.mem_reach_iff, Graph.mem_reach_iff, named_eq h]
  constructor
  · rintro ⟨a, ha, hleads⟩
    exact ⟨a, ha, (leads_of_leads h hrs hleads (contains_of_named hrs ha)).1⟩
  · rintro ⟨a, ha, hleads⟩
    exact ⟨a, ha, leads_within h hrs hleads (contains_of_named hrs ha)⟩

theorem notMem_spare_of_reached (h : rs.Within spare rs') (hrs : rs.Resolved) {name : Text}
    (hreached : name ∈ reached rs') : name ∉ spare := by
  rw [reached, Graph.mem_reach_iff, named_eq h] at hreached
  obtain ⟨a, ha, hleads⟩ := hreached
  exact h.notMem_of_contains (leads_of_leads h hrs hleads (contains_of_named hrs ha)).2

def takesReal (rs : RuleSet) (r : Rule) : Bool :=
  decide (r.kind = .token) && (r.synthetic || decide (r.name ∈ reached rs))

theorem real_eq {v : Vocabulary} (hv : ofRules rs = .ok v) :
    v.real = rs.rules.filter (takesReal rs) := by
  unfold ofRules at hv
  split at hv
  · cases hv
  · cases hv
    rw [RuleSet.ofKind, List.filter_filter]
    exact List.filter_congr fun r _ => Bool.and_comm _ _

theorem takesReal_eq (h : rs.Within spare rs') (hrs : rs.Resolved) {r r' : Rule}
    (hsame : r'.content = r.content) : takesReal rs' r' = takesReal rs r := by
  obtain ⟨hname, hkind, -, -, hsynthetic⟩ := Rule.content_eq_iff.mp hsame
  simp only [takesReal, hname, hkind, hsynthetic, mem_reached_iff h hrs]

theorem takesReal_spare (h : rs.Within spare rs') (hrs : rs.Resolved) {r' : Rule}
    (hr' : r' ∈ rs'.rules) (hspare : r'.name ∈ spare) : takesReal rs' r' = false := by
  have hunreached : r'.name ∉ reached rs' := fun hreached =>
    notMem_spare_of_reached h hrs hreached hspare
  rw [takesReal, (h.token r' hr' hspare).2, decide_eq_false hunreached, Bool.or_self,
    Bool.and_false]

/-- The real tokens are the same and in the same order. -/
theorem real_content (h : rs.Within spare rs') (hrs : rs.Resolved) {v v' : Vocabulary}
    (hv : ofRules rs = .ok v) (hv' : ofRules rs' = .ok v') :
    v'.real.map Rule.content = v.real.map Rule.content := by
  rw [real_eq hv, real_eq hv']
  exact h.filter_content (fun _ _ _ _ => takesReal_eq h hrs) fun _ => takesReal_spare h hrs

end Vocabulary

end GrammarKit
