import GrammarKit.Proofs.Rule.Acyclic
import Mathlib.Data.List.Chain
import Mathlib.Data.List.Nodup
import Mathlib.Logic.Relation

/-!
What becomes of the token rules of a set. The token and whitespace rules are a graph whose edges are
their references to each other. The search through this graph, with the path of open rules and the
rules that are done, fails exactly if the graph has a cycle, and the path it fails with is a cycle.
Otherwise a token rule is a real token exactly if it was made for a pattern or a production leads to
it through token rules alone.
-/
namespace GrammarKit

inductive Singular.Mentions (name : Text) : Singular → Prop where
  | symbol (span : Span) : Mentions name (.symbol name span)
  | group {alternatives : Alternation} {a : Alternative (Item Singular)} {i : Item Singular}
      (ha : a ∈ alternatives) (hi : i ∈ a.body) (h : Mentions name i.inner) :
      Mentions name (.group alternatives)

def Rule.Mentions (r : Rule) (name : Text) : Prop :=
  ∃ a ∈ r.alternatives, ∃ i ∈ a.body, i.inner.Mentions name

section References

variable {name : Text}

theorem Singular.mentions_symbol_iff {other : Text} {span : Span} :
    (Singular.symbol other span).Mentions name ↔ other = name := by
  constructor
  · intro h
    cases h
    rfl
  · rintro rfl
    exact .symbol span

theorem Singular.mentions_group_iff {alternatives : Alternation} :
    (Singular.group alternatives).Mentions name ↔
      ∃ a ∈ alternatives, ∃ i ∈ a.body, i.inner.Mentions name := by
  constructor
  · intro h
    cases h with
    | group ha hi h => exact ⟨_, ha, _, hi, h⟩
  · intro hmentions
    obtain ⟨a, ha, i, hi, h⟩ := hmentions
    exact .group ha hi h

mutual

/-- The references of a part are the names that stand in it. -/
theorem Singular.mem_names_iff : ∀ (x : Singular),
    name ∈ x.references.map Reference.name ↔ x.Mentions name
  | .group alternatives => by
    rw [Singular.references, Singular.mentions_group_iff]
    exact Alternation.mem_names_iff alternatives
  | .symbol other span => by
    rw [Singular.mentions_symbol_iff]
    simp [Singular.references, eq_comm]
  | .literal source matchers span => by
    refine iff_of_false ?_ nofun
    simp [Singular.references]
  | .charset source matcher span => by
    refine iff_of_false ?_ nofun
    simp [Singular.references]

theorem Alternation.mem_names_iff : ∀ (alternatives : List (Alternative (Item Singular))),
    name ∈ (Alternation.references alternatives).map Reference.name ↔
      ∃ a ∈ alternatives, ∃ i ∈ a.body, i.inner.Mentions name
  | [] => by simp [Alternation.references]
  | a :: rest => by
    simp only [Alternation.references, List.map_append, List.mem_append, List.mem_cons,
      exists_eq_or_imp, Alternative.mem_names_iff a, Alternation.mem_names_iff rest]

theorem Alternative.mem_names_iff : ∀ (a : Alternative (Item Singular)),
    name ∈ (Alternative.references a).map Reference.name ↔ ∃ i ∈ a.body, i.inner.Mentions name
  | ⟨_, _, items, _⟩ => by
    simp only [Alternative.references]
    exact Body.mem_names_iff items

theorem Body.mem_names_iff : ∀ (items : List (Item Singular)),
    name ∈ (Body.references items).map Reference.name ↔ ∃ i ∈ items, i.inner.Mentions name
  | [] => by simp [Body.references]
  | i :: rest => by
    simp only [Body.references, List.map_append, List.mem_append, List.mem_cons,
      exists_eq_or_imp, Item.mem_names_iff i, Body.mem_names_iff rest]

theorem Item.mem_names_iff : ∀ (i : Item Singular),
    name ∈ (Item.references i).map Reference.name ↔ i.inner.Mentions name
  | ⟨inner, _⟩ => by
    simp only [Item.references]
    exact Singular.mem_names_iff inner

end

theorem Rule.mem_names_iff {r : Rule} :
    name ∈ r.references.map Reference.name ↔ r.Mentions name :=
  Alternation.mem_names_iff r.alternatives

end References

namespace Vocabulary

variable {rs : RuleSet}

/-- An edge of the graph: of two token or whitespace rules the first refers to the second. -/
structure Refers (rs : RuleSet) (r t : Rule) : Prop where
  source_mem : r ∈ rs.rules
  source_lexical : r.isLexical = true
  target_mem : t ∈ rs.rules
  target_lexical : t.isLexical = true
  mentions : r.Mentions t.name

/-- Names of rules that refer each to the next one, from a rule back to this rule and without
another repetition. -/
def IsCycle (rs : RuleSet) (r : Rule) (path : List Text) : Prop :=
  ∃ between : List Rule, path = (r :: between ++ [r]).map Rule.name ∧
    ((r :: between).map Rule.name).Nodup ∧ (r :: between ++ [r]).IsChain (Refers rs)

theorem transGen_of_isChain {α : Type} {R : α → α → Prop} {last : α} (between : List α) :
    ∀ {first}, (first :: between ++ [last]).IsChain R → Relation.TransGen R first last := by
  induction between with
  | nil =>
    intro first hchain
    exact .single (List.isChain_pair.mp hchain)
  | cons next between ih =>
    intro first hchain
    obtain ⟨hstep, hrest⟩ := List.isChain_cons_cons.mp hchain
    exact .head hstep (ih hrest)

/-- The targets that the search goes on to are those of the edges. -/
theorem mem_lexicalTargets_iff {r t : Rule} (hr : r ∈ rs.rules) (hlexical : r.isLexical = true) :
    t ∈ lexicalTargets rs r ↔ Refers rs r t := by
  constructor
  · intro h
    obtain ⟨ht, hkind⟩ := List.mem_filter.mp (mem_lexicalTargets h)
    obtain ⟨x, hx, hget⟩ := List.mem_filterMap.mp (List.mem_filter.mp h).1
    refine ⟨hr, hlexical, ht, hkind, Rule.mem_names_iff.mp ?_⟩
    rw [RuleSet.get?_name hget]
    exact List.mem_map_of_mem hx
  · intro h
    obtain ⟨x, hx, hname⟩ := List.mem_map.mp (Rule.mem_names_iff.mpr h.mentions)
    have hget : rs.get? x.name = some t := hname ▸ RuleSet.get?_of_mem h.target_mem
    exact List.mem_filter.mpr ⟨List.mem_filterMap.mpr ⟨x, hx, hget⟩, h.target_lexical⟩

/-- Where the rules have an order, references go on in the order. -/
theorem Ordered.idxOf_lt {done : List Text} (h : Ordered rs done) {r t : Rule}
    (hr : r.name ∈ done) (hedge : Refers rs r t) :
    done.idxOf r.name < done.idxOf t.name ∧ t.name ∈ done := by
  induction h with
  | nil => cases hr
  | @cons first done hfirst hnew htargets hrest ih =>
    by_cases hname : first.name = r.name
    · obtain rfl : first = r :=
        List.inj_on_of_nodup_map rs.nodup (List.mem_filter.mp hfirst).1 hedge.source_mem hname
      have ht : t.name ∈ done :=
        htargets t ((mem_lexicalTargets_iff hedge.source_mem hedge.source_lexical).mpr hedge)
      have hne : first.name ≠ t.name := fun heq => hnew (heq ▸ ht)
      rw [List.idxOf_cons_self, List.idxOf_cons_ne _ hne]
      exact ⟨Nat.succ_pos _, List.mem_cons_of_mem _ ht⟩
    · have hr : r.name ∈ done := List.mem_of_ne_of_mem (Ne.symm hname) hr
      obtain ⟨hlt, ht⟩ := ih hr
      have hne : first.name ≠ t.name := fun heq => hnew (heq ▸ ht)
      rw [List.idxOf_cons_ne _ hname, List.idxOf_cons_ne _ hne]
      exact ⟨Nat.succ_lt_succ hlt, List.mem_cons_of_mem _ ht⟩

/-- A search that comes to its end has seen a graph without a cycle. -/
theorem not_transGen_of_cycle? (h : cycle? rs = none) (r : Rule) :
    ¬ Relation.TransGen (Refers rs) r r := by
  obtain ⟨done, hordered, hall⟩ := exists_ordered_of_cycle? h
  have hedge : ∀ {r t}, Refers rs r t → done.idxOf r.name < done.idxOf t.name := by
    intro r t hedge
    exact (hordered.idxOf_lt (hall r hedge.source_mem hedge.source_lexical) hedge).1
  have hpath : ∀ {t}, Relation.TransGen (Refers rs) r t →
      done.idxOf r.name < done.idxOf t.name := by
    intro t htrans
    induction htrans with
    | single hstep => exact hedge hstep
    | tail _ hstep ih => exact Nat.lt_trans ih (hedge hstep)
  intro hcycle
  exact Nat.lt_irrefl _ (hpath hcycle)

/-- How the search comes to a rule: the open rules are different, they refer each to the next one,
and the last of them to the rule. -/
structure Trail (rs : RuleSet) (above : List Rule) (r : Rule) : Prop where
  mem : r ∈ rs.rules
  lexical : r.isLexical = true
  above_mem : ∀ a ∈ above, a ∈ rs.rules
  nodup : (above.map Rule.name).Nodup
  chain : (above ++ [r]).IsChain (Refers rs)

/-- From an open rule that is not on the way yet the search goes on along an edge. -/
theorem Trail.snoc {above : List Rule} {r t : Rule} (h : Trail rs above r)
    (hnew : r.name ∉ above.map Rule.name) (hedge : Refers rs r t) : Trail rs (above ++ [r]) t where
  mem := hedge.target_mem
  lexical := hedge.target_lexical
  above_mem := by
    intro a ha
    rcases List.mem_append.mp ha with ha | ha
    · exact h.above_mem a ha
    · rw [List.mem_singleton.mp ha]
      exact h.mem
  nodup := by
    rw [List.map_append, List.map_singleton]
    refine List.nodup_append.mpr ⟨h.nodup, List.nodup_singleton _, ?_⟩
    rintro name hname _ hlast rfl
    exact hnew (List.mem_singleton.mp hlast ▸ hname)
  chain := by
    rw [List.append_assoc]
    exact List.isChain_append_cons_cons.mpr ⟨h.chain, hedge, List.isChain_singleton t⟩

/-- A rule that is open when the search comes to it closes a cycle. -/
theorem Trail.isCycle {above : List Rule} {r : Rule} (h : Trail rs above r)
    (hopen : r.name ∈ above.map Rule.name) :
    IsCycle rs r ((above.map Rule.name).dropWhile (fun name => decide (name ≠ r.name)) ++
      [r.name]) := by
  obtain ⟨first, hfirst, hname⟩ := List.mem_map.mp hopen
  obtain rfl := List.inj_on_of_nodup_map rs.nodup (h.above_mem first hfirst) h.mem hname
  obtain ⟨before, between, hsplit⟩ := List.append_of_mem hfirst
  have hnodup := h.nodup
  rw [hsplit, List.map_append, List.map_cons] at hnodup
  obtain ⟨-, hcycle, hapart⟩ := List.nodup_append.mp hnodup
  have hdrop : (above.map Rule.name).dropWhile (fun name => decide (name ≠ first.name)) =
      first.name :: between.map Rule.name := by
    rw [hsplit, List.map_append, List.dropWhile_append_of_pos]
    · simp
    · intro name hname
      exact decide_eq_true (hapart name hname _ List.mem_cons_self)
  refine ⟨between, ?_, hcycle, ?_⟩
  · rw [hdrop, List.map_append, List.map_cons, List.map_singleton]
  · refine h.chain.suffix ⟨before, ?_⟩
    rw [hsplit, List.append_assoc]

/-- Where a row of steps fails, one of its steps does. -/
theorem exists_of_foldlM_error {ε σ α : Type} {step : σ → α → Except ε σ} {e : ε} {l : List α} :
    ∀ {s}, l.foldlM step s = .error e → ∃ a ∈ l, ∃ s', step s' a = .error e := by
  induction l with
  | nil => exact nofun
  | cons a rest ih =>
    intro s h
    rw [List.foldlM_cons] at h
    cases hfirst : step s a with
    | error e' =>
      rw [hfirst] at h
      cases h
      exact ⟨a, List.mem_cons_self, s, hfirst⟩
    | ok s' =>
      rw [hfirst] at h
      obtain ⟨b, hb, hstep⟩ := ih h
      exact ⟨b, List.mem_cons_of_mem a hb, hstep⟩

/-- What a visit fails with is a cycle. -/
theorem isCycle_of_visit (depth : Nat) : ∀ {above : List Rule} {done path : List Text} {r : Rule},
    Trail rs above r → visit rs depth (above.map Rule.name) done r = .error path →
      ∃ first, IsCycle rs first path := by
  induction depth with
  | zero => exact fun _ h => nomatch h
  | succ depth ih =>
    intro above done path r htrail hvisit
    unfold visit at hvisit
    split at hvisit
    · next hopen =>
      cases hvisit
      exact ⟨r, htrail.isCycle hopen⟩
    · next hopen =>
      split at hvisit
      · cases hvisit
      · cases hfold : (lexicalTargets rs r).foldlM
            (visit rs depth (above.map Rule.name ++ [r.name])) done with
        | ok done' =>
          rw [hfold] at hvisit
          cases hvisit
        | error path' =>
          rw [hfold] at hvisit
          cases hvisit
          obtain ⟨t, ht, done', hbelow⟩ := exists_of_foldlM_error hfold
          have hedge := (mem_lexicalTargets_iff htrail.mem htrail.lexical).mp ht
          have hopened : above.map Rule.name ++ [r.name] = (above ++ [r]).map Rule.name := by
            rw [List.map_append, List.map_singleton]
          rw [hopened] at hbelow
          exact ih (htrail.snoc hopen hedge) hbelow

/-- A cycle that the search finds is one. -/
theorem isCycle_of_cycle? {path : List Text} (h : cycle? rs = some path) :
    ∃ first, IsCycle rs first path := by
  unfold cycle? at h
  split at h
  · next path' hfold =>
    cases h
    obtain ⟨r, hr, done, hvisit⟩ := exists_of_foldlM_error hfold
    obtain ⟨hmem, hlexical⟩ := List.mem_filter.mp hr
    have htrail : Trail rs [] r :=
      ⟨hmem, hlexical, by simp, List.nodup_nil, List.isChain_singleton r⟩
    exact isCycle_of_visit _ htrail hvisit
  · cases h

/-- Token rules that lead back to themselves are found exactly. Sorting the rules of a set fails
with such a rule if and only if the graph of token and whitespace rules has a cycle, and it fails in
no other way. The path of the error is a cycle, and the error is in the first rule of the path. -/
theorem recursion_found_exactly (rs : RuleSet) :
    ((∃ e, ofRules rs = .error e ∧ e.kind = .recursiveToken) ↔
      ∃ r, Relation.TransGen (Refers rs) r r) ∧
    ∀ e, ofRules rs = .error e → ∃ path first, e.problem = .recursiveToken path ∧
      IsCycle rs first path ∧ e.rule = some first.name := by
  have herror : ∀ e, ofRules rs = .error e → ∃ path first, e.problem = .recursiveToken path ∧
      IsCycle rs first path ∧ e.rule = some first.name := by
    intro e he
    unfold ofRules at he
    split at he
    · next path hpath =>
      cases he
      obtain ⟨first, hcycle⟩ := isCycle_of_cycle? hpath
      refine ⟨path, first, rfl, hcycle, ?_⟩
      obtain ⟨between, rfl, -⟩ := hcycle
      rfl
    · cases he
  refine ⟨⟨?_, ?_⟩, herror⟩
  · intro hfailed
    obtain ⟨e, he, -⟩ := hfailed
    obtain ⟨path, first, -, ⟨between, -, -, hchain⟩, -⟩ := herror e he
    exact ⟨first, transGen_of_isChain between hchain⟩
  · intro hgraph
    obtain ⟨r, hcycle⟩ := hgraph
    cases hpath : cycle? rs with
    | none => exact absurd hcycle (not_transGen_of_cycle? hpath r)
    | some path => exact ⟨recursive rs path, by rw [ofRules, hpath], rfl⟩

-- The way to a cycle is not part of the path, and neither is what the search has done before.
example : (Grammar.readRules (Text.ofString "z :== 'z'; a :== z b; b :== ('x' | c)+; c :== z b?;")
    (Text.ofString "_")).toOption.bind cycle? =
      some [Text.ofString "b", Text.ofString "c", Text.ofString "b"] := by
  decide +kernel

/-- A chain of references starts in a production, goes through token rules only and ends at a token
rule. -/
inductive Used (rs : RuleSet) : Rule → Prop where
  | named {p t : Rule} (hp : p ∈ rs.rules) (hproduction : p.kind = .production)
      (h : p.Mentions t.name) (ht : t ∈ rs.rules) (htoken : t.kind = .token) : Used rs t
  | through {r t : Rule} (hr : Used rs r) (h : r.Mentions t.name) (ht : t ∈ rs.rules)
      (htoken : t.kind = .token) : Used rs t

theorem Used.token {r : Rule} (h : Used rs r) : r ∈ rs.rules ∧ r.kind = .token := by
  cases h with
  | named _ _ _ ht htoken => exact ⟨ht, htoken⟩
  | through _ _ ht htoken => exact ⟨ht, htoken⟩

theorem mem_tokenNames_iff {a b : Text} :
    b ∈ tokenNames rs a ↔ ∃ r ∈ rs.rules, r.name = a ∧ r.kind = .token ∧ r.Mentions b := by
  unfold tokenNames
  constructor
  · intro h
    split at h
    · next r hget =>
      split at h
      · next hkind =>
        exact ⟨r, RuleSet.mem_of_get? hget, RuleSet.get?_name hget, hkind,
          Rule.mem_names_iff.mp h⟩
      · cases h
    · cases h
  · intro hnamed
    obtain ⟨r, hr, rfl, hkind, h⟩ := hnamed
    simp only [RuleSet.get?_of_mem hr, if_pos hkind]
    exact Rule.mem_names_iff.mpr h

/-- Whatever the search goes on to from a used token is used. -/
theorem used_of_leads {a b : Text} (hleads : (tokenGraph rs).Leads a b)
    (ha : ∀ t ∈ rs.rules, t.name = a → t.kind = .token → Used rs t) :
    ∀ t ∈ rs.rules, t.name = b → t.kind = .token → Used rs t := by
  induction hleads with
  | refl => exact ha
  | step hnext _ ih =>
    obtain ⟨r, hr, hname, hkind, hmentions⟩ := mem_tokenNames_iff.mp hnext
    refine ih ?_
    rintro t ht rfl htoken
    exact .through (ha r hr hname hkind) hmentions ht htoken

/-- The search from the productions reaches exactly the used tokens. -/
theorem mem_reached_iff_used {t : Rule} (ht : t ∈ rs.rules) (htoken : t.kind = .token) :
    t.name ∈ reached rs ↔ Used rs t := by
  have hnamed : ∀ name, name ∈ rs.productions.flatMap (fun p => p.references.map Reference.name) ↔
      ∃ p ∈ rs.rules, p.kind = .production ∧ p.Mentions name := by
    intro name
    simp only [List.mem_flatMap, RuleSet.productions, RuleSet.ofKind, List.mem_filter,
      decide_eq_true_eq, Rule.mem_names_iff, and_assoc]
  constructor
  · intro h
    obtain ⟨a, ha, hleads⟩ := Graph.mem_reach_iff.mp h
    obtain ⟨p, hp, hproduction, hmentions⟩ := (hnamed a).mp ha
    refine used_of_leads hleads ?_ t ht rfl htoken
    rintro u hu rfl hkind
    exact .named hp hproduction hmentions hu hkind
  · intro h
    induction h with
    | named hp hproduction h =>
      exact Graph.mem_reachFrom_of_mem (Or.inr ((hnamed _).mpr ⟨_, hp, hproduction, h⟩))
    | through hr h _ _ ih =>
      obtain ⟨hmem, hkind⟩ := hr.token
      exact Graph.next_mem_reachFrom (by simp) (ih hmem hkind)
        (mem_tokenNames_iff.mpr ⟨_, hmem, rfl, hkind, h⟩)

/-- The real tokens are exactly those in use. Real tokens and fragments are the token rules of the
set, each of them once and in the order of the rules; a token rule is real if and only if it was
made for a pattern or a chain of references leads to it from a production; and a name is said to be
that of a real token if and only if it is one. -/
theorem real_iff_used {rs : RuleSet} {v : Vocabulary} (h : ofRules rs = .ok v) :
    (v.real ++ v.fragments).Perm (rs.rules.filter fun r => decide (r.kind = .token)) ∧
    v.real.Disjoint v.fragments ∧ v.real.Sublist rs.rules ∧ v.fragments.Sublist rs.rules ∧
    (∀ r ∈ rs.rules, r.kind = .token → (r ∈ v.real ↔ r.synthetic = true ∨ Used rs r)) ∧
    ∀ name, v.isReal name = true ↔ name ∈ v.real.map Rule.name := by
  unfold ofRules at h
  split at h
  · cases h
  · cases h
    have hsublist : ∀ p : Rule → Bool, ((rs.ofKind .token).filter p).Sublist rs.rules :=
      fun p => List.filter_sublist.trans List.filter_sublist
    refine ⟨List.filter_append_perm _ _, ?_, hsublist _, hsublist _, ?_, ?_⟩
    · intro r hreal hfragment
      have hnot := (List.mem_filter.mp hfragment).2
      simp only [(List.mem_filter.mp hreal).2, Bool.not_true] at hnot
      cases hnot
    · intro r hr htoken
      simp only [RuleSet.ofKind, List.mem_filter, hr, htoken, decide_true, true_and,
        Bool.or_eq_true, decide_eq_true_eq, mem_reached_iff_used hr htoken]
    · intro name
      simp only [isReal, List.any_eq_true, decide_eq_true_eq, List.mem_map]

def wordsInUse : Text :=
  Text.ofString "s ::= word 'x'; word :== (letter | '#n')+ _?; letter :== [a-z]; " ++
    Text.ofString "_ :== blank+; blank :== ' '; number :== letter [0-9];"

/-- Letters are used in words, and blanks only in the white space of words. -/
theorem real_iff_used_words : ∃ rs v, ofRules rs = .ok v ∧
    v.real.map Rule.name = ["'x'", "word", "letter"].map Text.ofString ∧
    v.fragments.map Rule.name = ["blank", "number"].map Text.ofString ∧
    (v.real ++ v.fragments).Perm (rs.rules.filter fun r => decide (r.kind = .token)) ∧
    v.real.Disjoint v.fragments ∧ v.real.Sublist rs.rules ∧ v.fragments.Sublist rs.rules ∧
    (∀ r ∈ rs.rules, r.kind = .token → (r ∈ v.real ↔ r.synthetic = true ∨ Used rs r)) ∧
    ∀ name, v.isReal name = true ↔ name ∈ v.real.map Rule.name := by
  have htest : (Grammar.readRules wordsInUse (Text.ofString "_")).toOption.any (fun rs =>
      (ofRules rs).toOption.any fun v =>
        decide (v.real.map Rule.name = ["'x'", "word", "letter"].map Text.ofString) &&
        decide (v.fragments.map Rule.name = ["blank", "number"].map Text.ofString)) = true := by
    decide +kernel
  obtain ⟨rs, -, htest⟩ := exists_of_toOption_any htest
  obtain ⟨v, hv, htest⟩ := exists_of_toOption_any htest
  obtain ⟨hreal, hfragments⟩ := Bool.and_eq_true_iff.mp htest
  exact ⟨rs, v, hv, of_decide_eq_true hreal, of_decide_eq_true hfragments, real_iff_used hv⟩

end Vocabulary

end GrammarKit
