import GrammarKit.Proofs.Rule.Concatenation
import GrammarKit.Proofs.Rule.Within

/-!
Definitions of tokens inserted into a source. The rules of the longer source are those of the
shorter one, in the same order, with tokens under spare names between them. Only the indices differ.
-/
namespace GrammarKit

namespace Workbench

variable {spare : List Text} {gap : Nat} {w : Workbench}

theorem Embeds.mono {other : Workbench} {more : Nat} (h : Embeds spare gap w other)
    (hle : gap ≤ more) :
    List.Forall₂ (fun e e' => e'.1 = e.1 ∧ e.2.Alike more e'.2) w.drafts.entries
      (other.kept spare) :=
  h.drafts.imp fun _ _ hsame => ⟨hsame.1, hsame.2.mono hle⟩

theorem start_inserts {d : Source.Definition} (hname : d.name ∈ spare) :
    Ensures (Embeds spare gap w) (start d .token) (fun _ other => Embeds spare (gap + 1) w other)
      fun _ _ => True := by
  refine Ensures.get_bind fun other hw => ?_
  have hnext := hw.next
  split
  · split
    · exact Ensures.of_set fun _ _ =>
        { next := by simp only; omega, drafts := hw.mono (Nat.le_succ gap), token := hw.token }
    · exact Ensures.of_throw fun _ _ => trivial
  · next hget =>
    have hnew : d.name ∉ other.drafts.keys := (other.drafts.get?_eq_none_iff d.name).mp hget
    rw [NameTable.push_of_notMem _ _ hnew]
    intro _ _
    refine { next := by simp only; omega, drafts := ?_, token := ?_ }
    · have hkept : kept spare ⟨other.drafts.append d.name
          ⟨.token, [], other.nextIndex, [], false, d.span⟩ hnew, other.nextIndex + 1⟩ =
            other.kept spare := by
        rw [kept, NameTable.entries_append, List.filter_append, List.filter_cons,
          if_neg (by simpa using hname), List.filter_nil, List.append_nil, kept]
      rw [hkept]
      exact hw.mono (Nat.le_succ gap)
    · intro e he hspare
      rw [NameTable.entries_append, List.mem_append] at he
      rcases he with he | he
      · exact hw.token e he hspare
      · rw [List.mem_singleton.mp he]
        exact ⟨rfl, rfl⟩

theorem updateDraft_inserts {name : Text} (hname : name ∈ spare) {f : Draft → Draft}
    (hf : ∀ draft, (f draft).kind = draft.kind ∧ (f draft).synthetic = draft.synthetic) :
    Ensures (Embeds spare gap w) (updateDraft name f) (fun _ other => Embeds spare gap w other)
      fun _ _ => True := by
  refine Ensures.of_modify fun other hw => { next := hw.next, drafts := ?_, token := ?_ }
  · have hkept : kept spare { other with drafts := other.drafts.update name f } =
        other.kept spare := by
      rw [Embeds.kept_update]
      refine (List.map_congr_left fun e he => ?_).trans (List.map_id _)
      have hne : e.1 ≠ name := by
        intro heq
        have hfree := of_decide_eq_true (List.mem_filter.mp he).2
        exact hfree (heq ▸ hname)
      rw [if_neg hne]
      rfl
    rw [hkept]
    exact hw.drafts
  · intro e he hspare
    rw [NameTable.entries_update] at he
    obtain ⟨before, hbefore, rfl⟩ := List.mem_map.mp he
    have htoken := hw.token before hbefore hspare
    simp only
    split
    · rw [(hf before.2).1, (hf before.2).2]
      exact htoken
    · exact htoken

theorem addDoc_inserts {name : Text} (hname : name ∈ spare) (doc : Option Text) :
    Ensures (Embeds spare gap w) (addDoc name doc) (fun _ other => Embeds spare gap w other)
      fun _ _ => True := by
  unfold addDoc
  split
  · exact updateDraft_inserts hname fun _ => ⟨rfl, rfl⟩
  · exact Ensures.of_pure fun _ hw => hw

theorem addAlternative_inserts {name : Text} (hname : name ∈ spare) (kind : RuleKind)
    (a : Alternative (Item Singular)) :
    Ensures (Embeds spare gap w) (addAlternative name kind a)
      (fun _ other => Embeds spare gap w other) fun _ _ => True := by
  refine Ensures.get_bind fun other hw => ?_
  simp only
  split
  · exact Ensures.of_throw fun _ _ => trivial
  · have hadded : Ensures (Embeds spare gap w)
        (updateDraft name fun d => { d with alternatives := d.alternatives ++ [a] })
        (fun _ other => Embeds spare gap w other) fun _ _ => True :=
      updateDraft_inserts hname fun _ => ⟨rfl, rfl⟩
    refine hadded.imp ?_ (fun _ _ h => h) fun _ _ h => h
    rintro _ rfl
    exact hw

section Token

variable {pre : Workbench → Prop}

theorem ofGrammar_still {α : Type} (x : Except GrammarError α) :
    Ensures pre (Merge.ofGrammar x) (fun _ w => pre w) fun _ _ => True := by
  cases x with
  | error e => exact Ensures.of_throw fun _ _ => trivial
  | ok a => exact Ensures.of_pure fun _ hw => hw

theorem settle_still (source : Text) (span : Span) (pattern : Singular) :
    Ensures pre (settle .token source span pattern) (fun _ w => pre w) fun _ _ => True := by
  unfold settle
  rw [if_neg (by decide)]
  exact Ensures.of_pure fun _ hw => hw

mutual

/-- The parts of a token rule are resolved without any draft. -/
theorem singular_still (owner : Text) : ∀ x : Source.Singular,
    Ensures pre (singular owner .token x) (fun _ w => pre w) fun _ _ => True
  | .group alternatives _ => by
    simp only [singular]
    refine Ensures.bind (alternation_still owner alternatives) fun _ => ?_
    exact Ensures.of_pure fun _ hw => hw
  | .symbol name span => by
    simp only [singular]
    exact Ensures.of_pure fun _ hw => hw
  | .literal text span => by
    simp only [singular]
    exact Ensures.bind (ofGrammar_still _) fun _ => settle_still text span _
  | .charset text span => by
    simp only [singular]
    exact Ensures.bind (ofGrammar_still _) fun _ => settle_still text span _
  | .escape text span => by
    simp only [singular]
    exact Ensures.bind (ofGrammar_still _) fun _ => settle_still text span _

theorem alternation_still (owner : Text) :
    ∀ alternatives : List (Alternative (Source.Item Source.Singular)),
    Ensures pre (alternation owner .token alternatives) (fun _ w => pre w) fun _ _ => True
  | [] => by
    simp only [alternation]
    exact Ensures.of_pure fun _ hw => hw
  | a :: rest => by
    simp only [alternation]
    refine Ensures.bind (alternative_still owner a) fun _ => ?_
    exact Ensures.bind (alternation_still owner rest) fun _ => Ensures.of_pure fun _ hw => hw

theorem alternative_still (owner : Text) :
    ∀ a : Alternative (Source.Item Source.Singular),
    Ensures pre (alternative owner .token a) (fun _ w => pre w) fun _ _ => True
  | ⟨_, _, items, _⟩ => by
    simp only [alternative]
    exact Ensures.bind (body_still owner items) fun _ => Ensures.of_pure fun _ hw => hw

theorem body_still (owner : Text) :
    ∀ items : List (Source.Item Source.Singular),
    Ensures pre (body owner .token items) (fun _ w => pre w) fun _ _ => True
  | [] => by
    simp only [body]
    exact Ensures.of_pure fun _ hw => hw
  | i :: rest => by
    simp only [body]
    refine Ensures.bind (item_still owner i) fun _ => ?_
    exact Ensures.bind (body_still owner rest) fun _ => Ensures.of_pure fun _ hw => hw

theorem item_still (owner : Text) :
    ∀ i : Source.Item Source.Singular,
    Ensures pre (item owner .token i) (fun _ w => pre w) fun _ _ => True
  | ⟨inner, _, _⟩ => by
    simp only [item]
    exact Ensures.bind (singular_still owner inner) fun _ => Ensures.of_pure fun _ hw => hw

end

end Token

/-- Merging the definition of a spare token into the second table takes one index more. -/
theorem merge_inserts {whitespaceName : Text} {d : Source.Definition} (hkind : d.kind = .token)
    (hname : d.name ∈ spare) (hblank : d.name ≠ whitespaceName) :
    Ensures (Embeds spare gap w) (merge whitespaceName d)
      (fun _ other => Embeds spare (gap + 1) w other) fun _ _ => True := by
  have hkindOf : kindOf whitespaceName d = .ok .token := by
    unfold kindOf
    rw [hkind]
    simp only [if_neg hblank]
  rw [merge_eq, hkindOf]
  have hmerged : Ensures (Embeds spare gap w) (do
      start d .token
      addDoc d.name d.doc
      d.alternatives.forM (mergeAlternative d.name .token))
      (fun _ other => Embeds spare (gap + 1) w other) fun _ _ => True := by
    refine Ensures.bind (start_inserts hname) fun _ => ?_
    refine Ensures.bind (addDoc_inserts hname d.doc) fun _ => Ensures.forM (fun a => ?_) _
    exact Ensures.bind (alternative_still d.name a) fun b => addAlternative_inserts hname .token b
  exact hmerged

end Workbench

namespace Source

/-- The third row of definitions is the second one, up to spans, with the first one inserted. -/
inductive Inserted : List Definition → List Definition → List Definition → Prop where
  | nil : Inserted [] [] []
  | keep {extra ds ds' : List Definition} {d d' : Definition} (hsame : d.bare = d'.bare)
      (h : Inserted extra ds ds') : Inserted extra (d :: ds) (d' :: ds')
  | insert {extra ds ds' : List Definition} (d : Definition) (h : Inserted extra ds ds') :
      Inserted (d :: extra) ds (d :: ds')

theorem Inserted.subset {extra ds ds' : List Definition} (h : Inserted extra ds ds') :
    extra ⊆ ds' := by
  induction h with
  | nil => exact List.nil_subset _
  | keep _ _ ih => exact List.subset_cons_of_subset _ ih
  | insert d _ ih => exact List.cons_subset_cons d ih

theorem Inserted.append {extra ds ds' extra₂ ds₂ ds₂' : List Definition}
    (h : Inserted extra ds ds') (h₂ : Inserted extra₂ ds₂ ds₂') :
    Inserted (extra ++ extra₂) (ds ++ ds₂) (ds' ++ ds₂') := by
  induction h with
  | nil => exact h₂
  | keep hsame _ ih => exact .keep hsame ih
  | insert d _ ih => exact .insert d ih

theorem Inserted.of_bare : ∀ {ds ds' : List Definition},
    ds.map Definition.bare = ds'.map Definition.bare → Inserted [] ds ds'
  | [], [], _ => .nil
  | [], _ :: _, h | _ :: _, [], h => by simp only [List.map_nil, List.map_cons, reduceCtorEq] at h
  | _ :: _, _ :: _, h => .keep (List.cons.inj h).1 (of_bare (List.cons.inj h).2)

theorem Inserted.all : ∀ extra : List Definition, Inserted extra [] extra
  | [] => .nil
  | d :: rest => .insert d (all rest)

/-- A source that is put between two others brings its definitions between theirs, if neither it nor
the one before it ends in a docstring. -/
theorem inserted_between {t extra more : Text} {ds es others : List Definition}
    (hread : read t = .ok ds)
    (hlast : ∀ ls, Lexeme.scan t = .ok ls → ∀ l ∈ ls.getLast?, l.kind ≠ .doc)
    (hextra : read extra = .ok es)
    (hlast' : ∀ ls, Lexeme.scan extra = .ok ls → ∀ l ∈ ls.getLast?, l.kind ≠ .doc)
    (hmore : read more = .ok others) :
    ∃ ds', read (t ++ more) = .ok (ds ++ others.map (·.shift t.length)) ∧
      read (t ++ (extra ++ more)) = .ok ds' ∧
      Inserted (es.map (·.shift t.length)) (ds ++ others.map (·.shift t.length)) ds' := by
  have hwithout := read_append hread hlast more
  have hbehind := read_append hextra hlast' more
  rw [hmore] at hwithout hbehind
  have hwith := read_append hread hlast (extra ++ more)
  rw [hbehind] at hwith
  refine ⟨_, hwithout, hwith, ?_⟩
  show Inserted _ _ (ds ++ (es ++ others.map (·.shift extra.length)).map (·.shift t.length))
  have hothers : (others.map (·.shift t.length)).map Definition.bare =
      ((others.map (·.shift extra.length)).map (·.shift t.length)).map Definition.bare := by
    simp only [List.map_map]
    refine List.map_congr_left fun d _ => ?_
    simp only [Function.comp_apply, Definition.bare_shift]
  have hbehind := (Inserted.all (es.map (·.shift t.length))).append (.of_bare hothers)
  have hwhole := (Inserted.of_bare (Eq.refl (ds.map Definition.bare))).append hbehind
  rwa [List.nil_append, List.append_nil, List.nil_append, ← List.map_append] at hwhole

mutual

/-- Patterns are not written as names are. -/
theorem Singular.isName_patterns : ∀ x : Singular, x.isWorded = true →
    ∀ source ∈ x.patterns, source.isName = false
  | .group alternatives _, h => by
    simp only [Singular.isWorded, Bool.and_eq_true] at h
    simp only [Singular.patterns]
    exact Alternation.isName_patterns alternatives h.2
  | .symbol name _, _ => by
    simp only [Singular.patterns]
    exact nofun
  | .literal text _, h | .charset text _, h | .escape text _, h => by
    simp only [Singular.isWorded, Bool.not_eq_true'] at h
    simp only [Singular.patterns, List.mem_singleton, forall_eq]
    exact h

theorem Alternation.isName_patterns : ∀ alternatives : List (Alternative (Item Singular)),
    Alternation.isWorded alternatives = true →
    ∀ source ∈ Alternation.patterns alternatives, source.isName = false
  | [], _ => by
    simp only [Alternation.patterns]
    exact nofun
  | a :: rest, h => by
    simp only [Alternation.isWorded, Bool.and_eq_true] at h
    simp only [Alternation.patterns, List.forall_mem_append]
    exact ⟨Alternative.isName_patterns a h.1, Alternation.isName_patterns rest h.2⟩

theorem Alternative.isName_patterns : ∀ a : Alternative (Item Singular),
    Alternative.isWorded a = true → ∀ source ∈ Alternative.patterns a, source.isName = false
  | ⟨_, _, items, _⟩, h => by
    simp only [Alternative.isWorded, Bool.and_eq_true] at h
    simp only [Alternative.patterns]
    exact Body.isName_patterns items h.2

theorem Body.isName_patterns : ∀ items : List (Item Singular), Body.isWorded items = true →
    ∀ source ∈ Body.patterns items, source.isName = false
  | [], _ => by
    simp only [Body.patterns]
    exact nofun
  | i :: rest, h => by
    simp only [Body.isWorded, Bool.and_eq_true] at h
    simp only [Body.patterns, List.forall_mem_append]
    exact ⟨Item.isName_patterns i h.1, Body.isName_patterns rest h.2⟩

theorem Item.isName_patterns : ∀ i : Item Singular, Item.isWorded i = true →
    ∀ source ∈ Item.patterns i, source.isName = false
  | ⟨inner, _, _⟩, h => by
    simp only [Item.isWorded] at h
    simp only [Item.patterns]
    exact Singular.isName_patterns inner h

end

end Source

namespace Workbench

variable {spare : List Text}

/-- Rows of definitions, the second with spare tokens inserted, are merged into tables side by side.
Each definition that is inserted widens the gap. -/
theorem forM_merge_inserts {whitespaceName : Text} (hblank : whitespaceName ∉ spare)
    {extra ds ds' : List Source.Definition} (h : Source.Inserted extra ds ds')
    (hextra : ∀ d ∈ extra, d.kind = .token ∧ d.name ∈ spare)
    (hkept : ∀ d ∈ ds, d.name ∉ spare ∧
      Unspared spare (Source.Alternation.patterns d.alternatives)) :
    ∀ {gap : Nat} {w other v v' : Workbench}, Embeds spare gap w other →
      (ds.forM (merge whitespaceName)).run.run w = (.ok (), v) →
      (ds'.forM (merge whitespaceName)).run.run other = (.ok (), v') →
      ∃ gap, Embeds spare gap v v' := by
  induction h with
  | nil =>
    intro gap w other v v' hw hrun hrun'
    cases hrun
    cases hrun'
    exact ⟨gap, hw⟩
  | @keep extra ds ds' d d' hsame _ ih =>
    intro gap w other v v' hw hrun hrun'
    obtain ⟨⟨⟩, middle, hfirst, hrun⟩ := Ensures.exists_of_run_bind hrun
    obtain ⟨⟨⟩, middle', hfirst', hrun'⟩ := Ensures.exists_of_run_bind hrun'
    rw [List.forall_mem_cons] at hkept
    have hmerged := merge_abreast whitespaceName hsame hkept.1.1 hkept.1.2 w other hw
    rw [hfirst, hfirst'] at hmerged
    exact ih hextra hkept.2 hmerged.2 hrun hrun'
  | @insert extra ds ds' d _ ih =>
    intro gap w other v v' hw hrun hrun'
    obtain ⟨⟨⟩, middle, hfirst, hrun'⟩ := Ensures.exists_of_run_bind hrun'
    rw [List.forall_mem_cons] at hextra
    have hname : d.name ≠ whitespaceName := fun heq => hblank (heq ▸ hextra.1.2)
    have hmerged := (merge_inserts hextra.1.1 hextra.1.2 hname).answer hw hfirst
    exact ih hextra.2 hkept hmerged hrun hrun'

end Workbench

namespace Registry

/-- The rules of the first table are within those of the second one. -/
theorem within_of_embeds {spare : List Text} {gap : Nat} {w other : Workbench}
    (h : Workbench.Embeds spare gap w other) (hw : w.Numbered) (hother : other.Numbered)
    {whitespaceName : Text} (hblank : whitespaceName ∉ spare) :
    (RuleSet.ofDistinct (rules w.drafts) whitespaceName (rules_nodup _)).Within spare
      (RuleSet.ofDistinct (rules other.drafts) whitespaceName (rules_nodup _)) where
  whitespaceName := rfl
  blank := hblank
  kept := by
    rw [rules_ofDistinct hw, rules_ofDistinct hother, rules, rules, List.filter_map, List.map_map,
      List.map_map]
    refine map_eq_of_forall₂ (fun e e' hsame => ?_) h.drafts
    obtain ⟨hname, halike⟩ := hsame
    refine Rule.content_eq_iff.mpr ⟨hname, halike.kind, halike.alternatives, ?_, halike.synthetic⟩
    simp only [Draft.toRule, halike.docs]
  token := by
    intro r hr hspare
    rw [rules_ofDistinct hother] at hr
    obtain ⟨e, he, rfl⟩ := List.mem_map.mp hr
    exact h.token e he hspare

end Registry

namespace Grammar

/-- The rules of a source that can be read are what its definitions come to. -/
theorem readRules_eq {source : Text} {ds : List Source.Definition}
    (hread : Source.read source = .ok ds) (whitespaceName : Text) :
    readRules source whitespaceName = Registry.outcome whitespaceName ds := by
  have hrun := @Registry.addText_run source (Registry.empty whitespaceName) rfl
  rw [hread] at hrun
  unfold readRules Registry.outcome
  simp only [Ensures.run_bind, hrun]

/-- How a row of definitions comes to rules. -/
theorem exists_of_outcome {whitespaceName : Text} {ds : List Source.Definition} {rs : RuleSet}
    (h : Registry.outcome whitespaceName ds = .ok rs) :
    ∃ w : Workbench, (ds.forM (Workbench.merge whitespaceName)).run.run .empty = (.ok (), w) ∧
      w.Numbered ∧ rs = RuleSet.ofDistinct (Registry.rules w.drafts) whitespaceName
        (Registry.rules_nodup _) := by
  have hnumbered := Workbench.numbered_of_changes
    (Workbench.Merge.Proceeds.forM (Workbench.merge_proceeds whitespaceName) ds .empty)
    Workbench.empty_numbered
  rw [Registry.outcome_eq] at h
  generalize (ds.forM (Workbench.merge whitespaceName)).run.run Workbench.empty = result
    at h hnumbered
  obtain ⟨failure | ⟨⟩, w⟩ := result
  · cases h
  · refine ⟨w, rfl, hnumbered, ?_⟩
    simp only at h
    split at h
    · cases h
    · cases h
      rfl

/-- A source with definitions of new tokens inserted has the rules of the source within its own. -/
theorem within_of_inserted {source source' whitespaceName : Text}
    {extra ds ds' : List Source.Definition} (hread : Source.read source = .ok ds)
    (hread' : Source.read source' = .ok ds') (hinserted : Source.Inserted extra ds ds')
    (hextra : ∀ d ∈ extra, d.kind = .token ∧ d.name ≠ whitespaceName ∧
      ∀ other ∈ ds, other.name ≠ d.name) {rs rs' : RuleSet}
    (hrules : readRules source whitespaceName = .ok rs)
    (hrules' : readRules source' whitespaceName = .ok rs') :
    rs.Within (extra.map Source.Definition.name) rs' := by
  rw [readRules_eq hread] at hrules
  rw [readRules_eq hread'] at hrules'
  obtain ⟨w, hrun, hnumbered, rfl⟩ := exists_of_outcome hrules
  obtain ⟨w', hrun', hnumbered', rfl⟩ := exists_of_outcome hrules'
  have hblank : whitespaceName ∉ extra.map Source.Definition.name := by
    intro hmem
    obtain ⟨d, hd, hname⟩ := List.mem_map.mp hmem
    exact (hextra d hd).2.1 hname
  have hkept : ∀ d ∈ ds, d.name ∉ extra.map Source.Definition.name ∧
      Workbench.Unspared (extra.map Source.Definition.name)
        (Source.Alternation.patterns d.alternatives) := by
    intro d hd
    refine ⟨fun hmem => ?_, fun pattern hpattern hmem => ?_⟩
    · obtain ⟨other, hother, hname⟩ := List.mem_map.mp hmem
      exact (hextra other hother).2.2 d hd hname.symm
    · obtain ⟨other, hother, hname⟩ := List.mem_map.mp hmem
      have hworded := Source.worded_of_read hread d hd
      have hworded' := Source.worded_of_read hread' other (hinserted.subset hother)
      have hnot := Source.Alternation.isName_patterns _ hworded.alternatives pattern hpattern
      rw [← hname, hworded'.name] at hnot
      cases hnot
  obtain ⟨gap, hembeds⟩ := Workbench.forM_merge_inserts hblank hinserted
    (fun d hd => ⟨(hextra d hd).1, List.mem_map_of_mem hd⟩) hkept (Workbench.empty_embeds _)
    hrun hrun'
  exact Registry.within_of_embeds hembeds hnumbered hnumbered' hblank

end Grammar

end GrammarKit
