import GrammarKit.Grammar.Basic
import GrammarKit.Proofs.Rule.Drafts

/-!
What the rules of a source are like. A registry hands out rules only when every reference in them
has a target, and a fitting one. Reading a source comes to such rules or to a mistake in the
grammar, and to nothing else.
-/
namespace GrammarKit

namespace NameTable

theorem mem_of_get? {α : Type} {m : NameTable α} {key : Text} {value : α}
    (h : m.get? key = some value) : (key, value) ∈ m.entries := by
  obtain ⟨before, after, hentries, -⟩ := List.lookup_eq_some_iff.mp h
  rw [hentries]
  exact List.mem_append_right _ List.mem_cons_self

end NameTable

/-- Where no two members go by the same name, looking for the name of a member finds it. -/
theorem find?_name_eq_some {α : Type} {name : α → Text} {l : List α} (hnodup : (l.map name).Nodup)
    {a : α} (h : a ∈ l) : l.find? (fun b => decide (name b = name a)) = some a := by
  induction l with
  | nil => cases h
  | cons first rest ih =>
    rw [List.map_cons, List.nodup_cons] at hnodup
    rcases List.mem_cons.mp h with rfl | h
    · simp
    · have hne : name first ≠ name a := by
        intro heq
        exact hnodup.1 (heq ▸ List.mem_map_of_mem h)
      rw [List.find?_cons_of_neg (by simpa using hne)]
      exact ih hnodup.2 h

namespace RuleSet

theorem get?_of_mem {rs : RuleSet} {r : Rule} (h : r ∈ rs.rules) : rs.get? r.name = some r :=
  find?_name_eq_some rs.nodup h

/-- Every reference has a target, rules of characters refer to rules of characters, and whitespace
goes by the name that marks it. -/
structure Resolved (rs : RuleSet) : Prop where
  target : ∀ r ∈ rs.rules, ∀ x ∈ r.references,
    ∃ target, rs.get? x.name = some target ∧ (r.isLexical → target.isLexical)
  fits : ∀ r ∈ rs.rules, Alternation.all (Singular.fits r.kind) r.alternatives = true
  blank : ∀ r ∈ rs.rules, r.kind = .whitespace → r.name = rs.whitespaceName

end RuleSet

namespace Registry

theorem forM_eq_ok {ε α : Type} {f : α → Except ε Unit} {l : List α} (h : l.forM f = .ok ()) :
    ∀ a ∈ l, f a = .ok () := by
  induction l with
  | nil => simp
  | cons a rest ih =>
    have hbind : (f a >>= fun _ => rest.forM f) = .ok () := h
    obtain ⟨⟨⟩, hfirst, hrest⟩ := exists_of_bind_eq_ok hbind
    intro b hb
    rcases List.mem_cons.mp hb with rfl | hb
    · exact hfirst
    · exact ih hrest b hb

theorem mem_rules_iff {drafts : NameTable Draft} {r : Rule} :
    r ∈ rules drafts ↔ ∃ name draft, drafts.get? name = some draft ∧ r = draft.toRule name := by
  simp only [rules, List.mem_map, Prod.exists]
  constructor
  · intro hrule
    obtain ⟨name, draft, hmem, rfl⟩ := hrule
    exact ⟨name, draft, NameTable.get?_of_mem hmem, rfl⟩
  · intro hrule
    obtain ⟨name, draft, hget, rfl⟩ := hrule
    exact ⟨name, draft, NameTable.mem_of_get? hget, rfl⟩

theorem checkReference_target {drafts : NameTable Draft} {r : Rule} {x : Reference}
    (h : checkReference drafts r x = .ok ()) :
    ∃ draft, drafts.get? x.name = some draft ∧ (r.isLexical → draft.kind ≠ .production) := by
  unfold checkReference at h
  split at h
  · cases h
  · next draft hget =>
    refine ⟨draft, hget, fun hlexical hkind => ?_⟩
    rw [if_pos ⟨hlexical, hkind⟩] at h
    cases h

/-- Rules of checked drafts are resolved. -/
theorem resolved_ofDistinct {w : Workbench} {whitespaceName : Text}
    (hplain : w.Plain whitespaceName)
    (hcheck : checkReferences w.drafts (rules w.drafts) = .ok ()) :
    (RuleSet.ofDistinct (rules w.drafts) whitespaceName (rules_nodup w.drafts)).Resolved := by
  have hmem : ∀ r, r ∈ (RuleSet.ofDistinct (rules w.drafts) whitespaceName
      (rules_nodup w.drafts)).rules ↔ r ∈ rules w.drafts :=
    fun r => (RuleSet.perm_inOrder _).mem_iff
  constructor
  · intro r hr x hx
    have hchecked := forM_eq_ok (forM_eq_ok hcheck r ((hmem r).mp hr)) x hx
    obtain ⟨draft, hget, hkind⟩ := checkReference_target hchecked
    have htarget := (hmem _).mpr (mem_rules_iff.mpr ⟨x.name, draft, hget, rfl⟩)
    refine ⟨draft.toRule x.name, RuleSet.get?_of_mem htarget, fun hlexical => ?_⟩
    have hproduction := hkind hlexical
    show draft.kind.isLexical = true
    cases hdraft : draft.kind with
    | token => rfl
    | whitespace => rfl
    | production => exact absurd hdraft hproduction
  · intro r hr
    obtain ⟨name, draft, hget, rfl⟩ := mem_rules_iff.mp ((hmem r).mp hr)
    exact (hplain name draft hget).1
  · intro r hr
    obtain ⟨name, draft, hget, rfl⟩ := mem_rules_iff.mp ((hmem r).mp hr)
    exact (hplain name draft hget).2

def Ready (reg : Registry) : Prop :=
  reg.closed = false ∧ reg.workbench.Plain reg.whitespaceName

theorem empty_ready (whitespaceName : Text) : Ready (empty whitespaceName) :=
  ⟨rfl, Workbench.empty_plain⟩

theorem requireOpen_run (reg : Registry) : requireOpen.run.run reg =
    if reg.closed = true then (.error (.fault .registryClosed), reg) else (.ok (), reg) := by
  show (if reg.closed = true then _ else _ : Action Unit).run.run reg = _
  split
  · rfl
  · rfl

/-- An action begins, unless the rules have been handed out. -/
theorem requireOpen_ensures {α : Type} {x : Unit → Action α} {pre : Registry → Prop}
    {post : α → Registry → Prop} {exit : Failure → Registry → Prop}
    (h : Ensures pre (x ()) post exit)
    (hclosed : ∀ reg, pre reg → reg.closed = true → exit (.fault .registryClosed) reg) :
    Ensures pre (requireOpen >>= x) post exit := by
  intro reg hreg
  rw [Ensures.run_bind, requireOpen_run]
  by_cases hcase : reg.closed = true
  · rw [if_pos hcase]
    exact hclosed reg hreg hcase
  · rw [if_neg hcase]
    exact h reg hreg

/-- A registry that is ready lets any action begin. -/
theorem requireOpen_bind {α : Type} {x : Unit → Action α} {post : α → Registry → Prop}
    {exit : Failure → Registry → Prop} (h : Ensures Ready (x ()) post exit) :
    Ensures Ready (requireOpen >>= x) post exit := by
  refine requireOpen_ensures h fun reg hreg hclosed => ?_
  rw [hreg.1] at hclosed
  cases hclosed

theorem add_ensures (d : Source.Definition) :
    Ensures Ready (add d) (fun _ reg => Ready reg) (fun failure _ => failure.IsGrammar) := by
  refine requireOpen_bind (Ensures.get_bind fun reg hreg => ?_)
  have hmerge := Workbench.merge_ensures reg.whitespaceName d
  split
  · next w hrun => exact Ensures.of_set fun _ _ => ⟨hreg.1, hmerge.answer hreg.2 hrun⟩
  · next failure w hrun => exact fun _ _ => hmerge.failure hreg.2 hrun

theorem addText_ensures (text : Text) :
    Ensures Ready (addText text) (fun _ reg => Ready reg) (fun failure _ => failure.IsGrammar) := by
  refine requireOpen_bind ?_
  split
  · exact Ensures.of_throw fun _ _ => ⟨_, rfl⟩
  · next definitions _ => exact Ensures.forM add_ensures definitions

theorem close_ensures : Ensures Ready close (fun rs _ => rs.Resolved)
    (fun failure _ => failure.IsGrammar) := by
  refine requireOpen_bind (Ensures.get_bind fun reg hreg => ?_)
  split
  · exact Ensures.of_throw fun _ _ => ⟨_, rfl⟩
  · have hset : Ensures (fun other => other = reg) (set { reg with closed := true } : Action Unit)
        (fun _ _ => True) (fun failure _ => failure.IsGrammar) := Ensures.of_set fun _ _ => trivial
    refine Ensures.bind hset fun _ => ?_
    simp only
    split
    · exact Ensures.of_throw fun _ _ => ⟨_, rfl⟩
    · next hcheck =>
      rw [RuleSet.ofRules, dif_pos (rules_nodup _)]
      exact Ensures.of_pure fun _ _ => resolved_ofDistinct hreg.2 hcheck

/-- How a registry comes to hand out rules. -/
theorem close_eq_ok {reg : Registry} {rs : RuleSet} (h : (close.run.run reg).1 = .ok rs) :
    reg.failure = none ∧
      checkReferences reg.workbench.drafts (rules reg.workbench.drafts) = .ok () ∧
      rs = RuleSet.ofDistinct (rules reg.workbench.drafts) reg.whitespaceName (rules_nodup _) := by
  have hclose : Ensures (fun other => other = reg) close (fun rs _ => reg.failure = none ∧
      checkReferences reg.workbench.drafts (rules reg.workbench.drafts) = .ok () ∧
      rs = RuleSet.ofDistinct (rules reg.workbench.drafts) reg.whitespaceName (rules_nodup _))
      (fun _ _ => True) := by
    refine requireOpen_ensures (Ensures.get_bind fun other hother => ?_) fun _ _ _ => trivial
    subst hother
    split
    · exact Ensures.of_throw fun _ _ => trivial
    · next hfailure =>
      have hset : Ensures (fun state => state = other)
          (set { other with closed := true } : Action Unit) (fun _ _ => True) fun _ _ => True :=
        Ensures.of_set fun _ _ => trivial
      refine Ensures.bind hset fun _ => ?_
      simp only
      split
      · exact Ensures.of_throw fun _ _ => trivial
      · next hcheck =>
        rw [RuleSet.ofRules, dif_pos (rules_nodup _)]
        exact Ensures.of_pure fun _ _ => ⟨hfailure, hcheck, rfl⟩
  have hrun := hclose reg rfl
  generalize close.run.run reg = result at h hrun
  obtain ⟨failure | answer, after⟩ := result
  · cases h
  · cases h
    exact hrun

end Registry

/-- A source gives rules in which all references are resolved, or it has a mistake. -/
theorem Grammar.readRules_cases (source whitespaceName : Text) :
    (∃ rs, readRules source whitespaceName = .ok rs ∧ rs.Resolved) ∨
      ∃ e, readRules source whitespaceName = .error (.grammar e) := by
  have h := Ensures.bind (Registry.addText_ensures source) (fun _ => Registry.close_ensures)
    (Registry.empty whitespaceName) (Registry.empty_ready whitespaceName)
  unfold readRules
  simp only
  split at h
  · next rs _ hrun => exact Or.inl ⟨rs, by rw [hrun], h⟩
  · next failure _ hrun =>
    obtain ⟨e, rfl⟩ := h
    exact Or.inr ⟨e, by rw [hrun]⟩

end GrammarKit
