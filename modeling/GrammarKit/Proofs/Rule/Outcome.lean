import GrammarKit.Proofs.Rule.Merging

/-!
What comes out of a registry. As long as no definition fails, a registry follows the row of
definitions it was given: its drafts are those of the row. The rules that are handed out are then
those that the definitions come to, with the place of each in the row of arrivals as its index.
-/
namespace GrammarKit

namespace Source

/-- The docstrings of a row of definitions, those that are empty left out, with a blank line between
them. -/
def joinedDoc (ds : List Definition) : Option Text :=
  match ds.filterMap Definition.doc? with
  | [] => none
  | docs => some (Text.join (Text.ofString "\n\n") docs)

end Source

def Rule.tags (r : Rule) : List Text := r.alternatives.zipIdx.map fun (a, i) => a.tag r.name i

/-- A rule is what the definitions of its name come to: it is as the first one says, and it has the
alternatives and the docstrings of all of them. -/
structure Rule.Merged (whitespaceName : Text) (ds : List Source.Definition) (r : Rule) : Prop where
  first : ∃ d, (Source.definitionsOf r.name ds).head? = some d ∧
    Workbench.kindOf whitespaceName d = .ok r.kind ∧ r.span = d.span
  alternatives : Source.Alternation.compiled r.name r.kind
    ((Source.definitionsOf r.name ds).flatMap Source.Definition.alternatives) = .ok r.alternatives
  doc : r.doc = Source.joinedDoc (Source.definitionsOf r.name ds)
  tags : r.kind = .production → r.tags.Nodup
  index : r.index = (Arrival.sequence ds).idxOf (.definition r.name)
  synthetic : r.synthetic = false

/-- A rule is what a pattern was moved into, out of productions. -/
structure Rule.Moved (ds : List Source.Definition) (r : Rule) : Prop where
  pattern : ∃ x span, Singular.MadeOf r.name x ∧
    r.alternatives = [{ body := [⟨x, .one⟩], span := span }] ∧ r.span = span
  kind : r.kind = .token
  doc : r.doc = none
  index : r.index = (Arrival.sequence ds).idxOf (.pattern r.name)
  synthetic : r.synthetic = true

theorem Draft.Gathers.merged {whitespaceName name : Text} {ds : List Source.Definition}
    {draft : Draft} (h : draft.Gathers whitespaceName name (Source.definitionsOf name ds)
      ((Arrival.sequence ds).idxOf (.definition name))) :
    (draft.toRule name).Merged whitespaceName ds where
  first := by
    obtain ⟨d, hhead, hspan⟩ := Option.map_eq_some_iff.mp h.span
    exact ⟨d, hhead, h.kind d (List.mem_of_mem_head? hhead), hspan.symm⟩
  alternatives := h.alternatives
  doc := by
    show (if draft.docs.isEmpty then _ else _) = Source.joinedDoc (Source.definitionsOf name ds)
    rw [Source.joinedDoc, h.docs]
    cases (Source.definitionsOf name ds).filterMap Source.Definition.doc? with
    | nil => rfl
    | cons doc docs => rfl
  tags := h.tags
  index := congrArg Int.ofNat h.index
  synthetic := h.synthetic

theorem moved_patternDraft {ds : List Source.Definition} {source : Text} {x : Singular}
    (hx : Singular.MadeOf source x) (span : Span) {index : Nat}
    (hindex : index = (Arrival.sequence ds).idxOf (.pattern source)) :
    ((Workbench.patternDraft x index span).toRule source).Moved ds where
  pattern := ⟨x, span, hx, rfl, rfl⟩
  kind := rfl
  doc := rfl
  index := congrArg Int.ofNat hindex
  synthetic := rfl

namespace Workbench.Mirrors

variable {whitespaceName : Text} {ds : List Source.Definition} {w : Workbench}

theorem exists_merged (h : w.Mirrors whitespaceName ds (Arrival.sequence ds)) {name : Text}
    (hname : .definition name ∈ Arrival.sequence ds) :
    ∃ r ∈ Registry.rules w.drafts, r.name = name ∧ r.Merged whitespaceName ds := by
  obtain ⟨draft, hget, hgathers⟩ := h.defined name hname
  exact ⟨draft.toRule name, Registry.mem_rules_iff.mpr ⟨name, draft, hget, rfl⟩, rfl,
    hgathers.merged⟩

theorem exists_moved (h : w.Mirrors whitespaceName ds (Arrival.sequence ds)) {source : Text}
    (hsource : .pattern source ∈ Arrival.sequence ds) :
    ∃ r ∈ Registry.rules w.drafts, r.name = source ∧ r.Moved ds := by
  obtain ⟨x, span, hx, hget⟩ := h.moved source hsource
  exact ⟨_, Registry.mem_rules_iff.mpr ⟨source, _, hget, rfl⟩, rfl, moved_patternDraft hx span rfl⟩

/-- Every rule is what the definitions of its name come to, or what a pattern was moved into. -/
theorem cases_of_mem (h : w.Mirrors whitespaceName ds (Arrival.sequence ds)) {r : Rule}
    (hr : r ∈ Registry.rules w.drafts) :
    (.definition r.name ∈ Arrival.sequence ds ∧ r.Merged whitespaceName ds) ∨
      (.pattern r.name ∈ Arrival.sequence ds ∧ r.Moved ds) := by
  obtain ⟨name, draft, hget, rfl⟩ := Registry.mem_rules_iff.mp hr
  have hkey : name ∈ w.drafts.keys := by
    rw [← NameTable.get?_isSome_iff, hget]
    rfl
  rcases h.key name hkey with hmem | hmem
  · obtain ⟨draft', hget', hgathers⟩ := h.defined name hmem
    rw [hget, Option.some.injEq] at hget'
    subst hget'
    exact Or.inl ⟨hmem, hgathers.merged⟩
  · obtain ⟨x, span, hx, hget'⟩ := h.moved name hmem
    rw [hget, Option.some.injEq] at hget'
    subst hget'
    exact Or.inr ⟨hmem, moved_patternDraft hx _ rfl⟩

end Workbench.Mirrors

namespace Registry

structure Follows (whitespaceName : Text) (ds : List Source.Definition) (reg : Registry) :
    Prop where
  isOpen : reg.closed = false
  whitespaceName_eq : reg.whitespaceName = whitespaceName
  failure : reg.failure = none
  mirrors : reg.workbench.Mirrors whitespaceName ds (Arrival.sequence ds)
  plain : reg.workbench.Plain whitespaceName
  numbered : reg.workbench.Numbered

variable {whitespaceName : Text} {ds : List Source.Definition}

theorem empty_follows (whitespaceName : Text) :
    (empty whitespaceName).Follows whitespaceName [] where
  isOpen := rfl
  whitespaceName_eq := rfl
  failure := rfl
  mirrors := Workbench.mirrors_empty whitespaceName
  plain := Workbench.empty_plain
  numbered := Workbench.empty_numbered

theorem add_run (d : Source.Definition) {reg : Registry} (hopen : reg.closed = false) :
    (add d).run.run reg =
      match (Workbench.merge reg.whitespaceName d).run.run reg.workbench with
      | (.ok _, w) => (.ok (), { reg with workbench := w })
      | (.error failure, w) => (.error failure,
        { reg with workbench := w, failure := reg.failure.or failure.grammar? }) := by
  have hclosed : ¬ reg.closed = true := by simp [hopen]
  unfold add
  rw [Ensures.run_bind, requireOpen_run, if_neg hclosed]
  show (match (Workbench.merge reg.whitespaceName d).run.run reg.workbench with
    | (.ok _, w) => set { reg with workbench := w }
    | (.error failure, w) => do
      set { reg with workbench := w, failure := reg.failure.or failure.grammar? }
      throw failure : Action Unit).run.run reg = _
  split
  · rfl
  · rfl

/-- A definition that is added without a failure is one more in the row, and a failure is kept. -/
theorem add_follows {d : Source.Definition} (hd : d.Worded) :
    Ensures (Follows whitespaceName ds) (add d)
      (fun _ reg => reg.Follows whitespaceName (ds ++ [d]))
      fun _ reg => reg.failure.isSome = true := by
  intro reg hreg
  obtain rfl := hreg.whitespaceName_eq
  have hplain := Workbench.merge_ensures reg.whitespaceName d
  have hnumbered := Workbench.numbered_of_changes
    (Workbench.merge_proceeds reg.whitespaceName d reg.workbench) hreg.numbered
  rw [add_run d hreg.isOpen]
  generalize hrun : (Workbench.merge reg.whitespaceName d).run.run reg.workbench = result
    at hnumbered
  obtain ⟨failure | answer, w⟩ := result
  · obtain ⟨e, rfl⟩ := hplain.failure hreg.plain hrun
    show (reg.failure.or (some e)).isSome = true
    rw [hreg.failure]
    rfl
  · refine ⟨hreg.isOpen, rfl, hreg.failure, ?_, ?_, hnumbered⟩
    · rw [Arrival.sequence_append]
      exact (Workbench.merge_mirrors hd).answer hreg.mirrors hrun
    · exact hplain.answer hreg.plain hrun

/-- Definitions are added one after the other. -/
theorem forM_add_follows (rest : List Source.Definition) (hrest : ∀ d ∈ rest, d.Worded) :
    ∀ ds, Ensures (Follows whitespaceName ds) (rest.forM add)
      (fun _ reg => reg.Follows whitespaceName (ds ++ rest))
      fun _ reg => reg.failure.isSome = true := by
  induction rest with
  | nil =>
    intro ds
    refine Ensures.of_pure fun reg hreg => ?_
    rwa [List.append_nil]
  | cons d rest ih =>
    intro ds
    have hothers := ih (fun e he => hrest e (List.mem_cons_of_mem d he)) (ds ++ [d])
    rw [← List.append_cons] at hothers
    exact Ensures.bind (add_follows (hrest d List.mem_cons_self)) fun _ => hothers

/-- Rules of numbered drafts are in order as they stand. -/
theorem rules_ofDistinct {w : Workbench} (hw : w.Numbered) (whitespaceName : Text) :
    (RuleSet.ofDistinct (rules w.drafts) whitespaceName (rules_nodup w.drafts)).rules =
      rules w.drafts := by
  have hsorted : (rules w.drafts).Pairwise fun a b => RuleSet.byIndex a b = true := by
    unfold rules
    rw [List.pairwise_map]
    refine hw.increasing.imp fun {a b} hlt => decide_eq_true ?_
    show (a.2.index : Int) ≤ b.2.index
    omega
  show inOrder RuleSet.byIndex (rules w.drafts) = rules w.drafts
  rw [RuleSet.inOrder_byIndex]
  exact List.mergeSort_of_pairwise hsorted

theorem Follows.rules_eq {reg : Registry} (h : reg.Follows whitespaceName ds) {rs : RuleSet}
    (hclose : (close.run.run reg).1 = .ok rs) : rs.rules = rules reg.workbench.drafts := by
  obtain ⟨-, -, rfl⟩ := close_eq_ok hclose
  exact rules_ofDistinct h.numbered reg.whitespaceName

/-- Merging is faithful: for definitions that were read from texts and added without a failure, each
name has the rule that all its definitions come to, each pattern that arrived has its own rule,
there are no other rules, and these are the ones that are handed out. -/
theorem merging_faithful {reg : Registry}
    (hread : ∀ d ∈ ds, ∃ text definitions, Source.read text = .ok definitions ∧ d ∈ definitions)
    (hrun : (ds.forM add).run.run (empty whitespaceName) = (.ok (), reg)) :
    (∀ d ∈ ds, ∃ r ∈ rules reg.workbench.drafts, r.name = d.name ∧ r.Merged whitespaceName ds) ∧
    (∀ source, .pattern source ∈ Arrival.sequence ds →
      ∃ r ∈ rules reg.workbench.drafts, r.name = source ∧ r.Moved ds) ∧
    (∀ r ∈ rules reg.workbench.drafts,
      (r.name ∈ ds.map Source.Definition.name ∧ r.Merged whitespaceName ds) ∨
        (.pattern r.name ∈ Arrival.sequence ds ∧ r.Moved ds)) ∧
    ∀ rs, (close.run.run reg).1 = .ok rs → rs.rules = rules reg.workbench.drafts := by
  have hworded : ∀ d ∈ ds, d.Worded := by
    intro d hd
    obtain ⟨text, definitions, htext, hmem⟩ := hread d hd
    exact Source.worded_of_read htext d hmem
  have hfollows := (forM_add_follows ds hworded []).answer (empty_follows whitespaceName) hrun
  rw [List.nil_append] at hfollows
  refine ⟨?_, ?_, ?_, ?_⟩
  · exact fun d hd => hfollows.mirrors.exists_merged (hfollows.mirrors.arrived d hd)
  · exact fun source hsource => hfollows.mirrors.exists_moved hsource
  · intro r hr
    rcases hfollows.mirrors.cases_of_mem hr with ⟨-, hmerged⟩ | hmoved
    · obtain ⟨d, hhead, -⟩ := hmerged.first
      obtain ⟨hd, hname⟩ := List.mem_filter.mp (List.mem_of_mem_head? hhead)
      refine Or.inl ⟨?_, hmerged⟩
      rw [← of_decide_eq_true hname]
      exact List.mem_map_of_mem hd
    · exact Or.inr hmoved
  · exact fun rs hclose => hfollows.rules_eq hclose

def twoDefinitions : Text :=
  Text.ofString "/** one */ a ::= 'x' ('y' | b) 'x'; b :== [0-9] '.'?; /** two */ a ::= 'z'+ 'y';"

/-- The pattern that only the second definition has comes after the index that this definition
took. -/
theorem merging_faithful_twoDefinitions :
    ∃ ds reg, Source.read twoDefinitions = .ok ds ∧
      (ds.forM add).run.run (empty defaultWhitespaceName) = (.ok (), reg) ∧
      Arrival.sequence ds = [.definition (Text.ofString "a"), .pattern (Text.ofString "'x'"),
        .pattern (Text.ofString "'y'"), .definition (Text.ofString "b"),
        .definition (Text.ofString "a"), .pattern (Text.ofString "'z'")] ∧
      (∀ d ∈ ds, ∃ r ∈ rules reg.workbench.drafts,
        r.name = d.name ∧ r.Merged defaultWhitespaceName ds) ∧
      ∃ r ∈ rules reg.workbench.drafts, r.name = Text.ofString "'z'" ∧ r.Moved ds := by
  have htest : (Source.read twoDefinitions).toOption.any (fun ds =>
      decide (Arrival.sequence ds = [.definition (Text.ofString "a"),
        .pattern (Text.ofString "'x'"), .pattern (Text.ofString "'y'"),
        .definition (Text.ofString "b"), .definition (Text.ofString "a"),
        .pattern (Text.ofString "'z'")]) &&
      ((ds.forM add).run.run (empty defaultWhitespaceName)).1.isOk) = true := by
    decide +kernel
  obtain ⟨ds, hread, htest⟩ := exists_of_toOption_any htest
  obtain ⟨hsequence, hok⟩ := Bool.and_eq_true_iff.mp htest
  have hsequence := of_decide_eq_true hsequence
  generalize hrun : (ds.forM add).run.run (empty defaultWhitespaceName) = result at hok
  obtain ⟨failure | answer, reg⟩ := result
  · cases hok
  · obtain ⟨hmerged, hmoved, -⟩ := merging_faithful
      (fun d hd => ⟨twoDefinitions, ds, hread, hd⟩) hrun
    refine ⟨ds, reg, hread, hrun, hsequence, hmerged, hmoved _ ?_⟩
    rw [hsequence]
    simp

end Registry

end GrammarKit
