import GrammarKit.Proofs.Rule.Bare
import GrammarKit.Proofs.Rule.Merging
import GrammarKit.Proofs.Source.Respan
import Mathlib.Data.List.Forall2

/-!
Two tables of drafts side by side, of which the second also has drafts of spare names. Merging
definitions that say the same keeps the tables side by side, or it fails in both for the same
reason. Where no name is spare, the tables say the same.
-/
namespace GrammarKit

theorem Alternation.bare_eq_map (alternatives : Alternation) :
    Alternation.bare alternatives = alternatives.map Alternative.bare := by
  induction alternatives with
  | nil => simp only [Alternation.bare, List.map_nil]
  | cons a rest ih => simp only [Alternation.bare, List.map_cons, ih]

theorem Alternative.tag_bare (a : Alternative (Item Singular)) (rule : Text) (index : Nat) :
    (Alternative.bare a).tag rule index = a.tag rule index := by
  cases a
  simp only [Alternative.bare, Alternative.tag]

/-- Two drafts that say the same. The index of the second may be greater, by the gap at most. -/
structure Draft.Alike (gap : Nat) (draft other : Draft) : Prop where
  kind : other.kind = draft.kind
  alternatives : Alternation.bare other.alternatives = Alternation.bare draft.alternatives
  docs : other.docs = draft.docs
  synthetic : other.synthetic = draft.synthetic
  le_index : draft.index ≤ other.index
  index_le : other.index ≤ draft.index + gap

namespace Draft.Alike

variable {gap : Nat} {draft other : Draft}

theorem mono {more : Nat} (h : draft.Alike gap other) (hle : gap ≤ more) : draft.Alike more other :=
  { h with index_le := Nat.le_trans h.index_le (Nat.add_le_add_left hle _) }

theorem length_eq (h : draft.Alike gap other) :
    other.alternatives.length = draft.alternatives.length := by
  have hlength := congrArg List.length h.alternatives
  simpa only [Alternation.bare_eq_map, List.length_map] using hlength

theorem tags_eq (h : draft.Alike gap other) (name : Text) : other.tags name = draft.tags name := by
  have htags : ∀ d : Draft, d.tags name =
      (Alternation.bare d.alternatives).zipIdx.map fun entry => entry.1.tag name entry.2 := by
    intro d
    rw [Alternation.bare_eq_map, List.zipIdx_map, List.map_map]
    refine List.map_congr_left fun entry _ => ?_
    exact (Alternative.tag_bare entry.1 name entry.2).symm
  rw [htags, htags, h.alternatives]

end Draft.Alike

namespace Workbench

def kept (spare : List Text) (w : Workbench) : List (Text × Draft) :=
  w.drafts.entries.filter fun e => decide (e.1 ∉ spare)

/-- The second table holds the drafts of the first, in their order, and besides only drafts of
tokens under spare names. It has taken as many indices more as the gap says. -/
structure Embeds (spare : List Text) (gap : Nat) (w other : Workbench) : Prop where
  next : other.nextIndex = w.nextIndex + gap
  drafts : List.Forall₂ (fun e e' => e'.1 = e.1 ∧ e.2.Alike gap e'.2) w.drafts.entries
    (other.kept spare)
  token : ∀ e ∈ other.drafts.entries, e.1 ∈ spare → e.2.kind = .token ∧ e.2.synthetic = false

variable {spare : List Text} {gap : Nat}

theorem empty_embeds (spare : List Text) : Embeds spare 0 empty empty where
  next := rfl
  drafts := .nil
  token := nofun

theorem lookup_kept {name : Text} (hname : name ∉ spare) (entries : List (Text × Draft)) :
    (entries.filter fun e => decide (e.1 ∉ spare)).lookup name = entries.lookup name := by
  induction entries with
  | nil => rfl
  | cons e rest ih =>
    by_cases heq : name = e.1
    · subst heq
      rw [List.filter_cons, if_pos (decide_eq_true hname), List.lookup_cons, List.lookup_cons]
      simp
    · have hbeq : (name == e.1) = false := by simpa using heq
      rw [List.filter_cons]
      split
      · rw [List.lookup_cons, List.lookup_cons, hbeq]
        exact ih
      · rw [List.lookup_cons, hbeq]
        exact ih

namespace Embeds

variable {w other : Workbench}

/-- A name that is not spare has drafts that say the same, or no draft. -/
theorem get? (h : Embeds spare gap w other) {name : Text} (hname : name ∉ spare) :
    Option.Rel (Draft.Alike gap) (w.drafts.get? name) (other.drafts.get? name) := by
  have hkept : (other.kept spare).lookup name = other.drafts.get? name := lookup_kept hname _
  rw [← hkept]
  show Option.Rel _ (w.drafts.entries.lookup name) _
  have hdrafts := h.drafts
  generalize other.kept spare = entries' at hdrafts
  generalize w.drafts.entries = entries at hdrafts
  induction hdrafts with
  | nil => exact .none
  | @cons e e' rest rest' hsame _ ih =>
    rw [List.lookup_cons, List.lookup_cons, hsame.1]
    cases hcase : name == e.1 with
    | true => exact .some hsame.2
    | false => exact ih

theorem mem_keys_iff (h : Embeds spare gap w other) {name : Text} (hname : name ∉ spare) :
    name ∈ other.drafts.keys ↔ name ∈ w.drafts.keys := by
  rw [← NameTable.get?_isSome_iff, ← NameTable.get?_isSome_iff]
  have hget := h.get? hname
  generalize w.drafts.get? name = draft at hget
  generalize other.drafts.get? name = draft' at hget
  cases hget with
  | none => exact Iff.rfl
  | some => exact Iff.rfl

/-- Both tables get a draft of a new name. -/
theorem append (h : Embeds spare gap w other) {name : Text} (hname : name ∉ spare)
    (hnew : name ∉ w.drafts.keys) (hnew' : name ∉ other.drafts.keys) {draft draft' : Draft}
    (hdraft : draft.Alike gap draft') :
    Embeds spare gap ⟨w.drafts.append name draft hnew, w.nextIndex + 1⟩
      ⟨other.drafts.append name draft' hnew', other.nextIndex + 1⟩ where
  next := by
    have hnext := h.next
    simp only
    omega
  drafts := by
    have hkept : kept spare ⟨other.drafts.append name draft' hnew', other.nextIndex + 1⟩ =
        other.kept spare ++ [(name, draft')] := by
      rw [kept, NameTable.entries_append, List.filter_append, List.filter_cons,
        if_pos (decide_eq_true hname)]
      rfl
    rw [hkept, NameTable.entries_append]
    exact List.rel_append h.drafts (.cons ⟨rfl, hdraft⟩ .nil)
  token := by
    intro e he hspare
    rw [NameTable.entries_append, List.mem_append] at he
    rcases he with he | he
    · exact h.token e he hspare
    · rw [List.mem_singleton.mp he] at hspare
      exact absurd hspare hname

theorem kept_update (spare : List Text) (w : Workbench) (name : Text) (f : Draft → Draft) :
    kept spare { w with drafts := w.drafts.update name f } =
      (w.kept spare).map fun e => (e.1, if e.1 = name then f e.2 else e.2) := by
  rw [kept, NameTable.entries_update, List.filter_map]
  rfl

/-- Both tables change the draft of a name. -/
theorem update (h : Embeds spare gap w other) {name : Text} (hname : name ∉ spare)
    {f g : Draft → Draft}
    (hfg : ∀ draft draft', draft.Alike gap draft' → (f draft).Alike gap (g draft')) :
    Embeds spare gap { w with drafts := w.drafts.update name f }
      { other with drafts := other.drafts.update name g } where
  next := h.next
  drafts := by
    rw [kept_update, NameTable.entries_update, List.forall₂_map_left_iff,
      List.forall₂_map_right_iff]
    refine h.drafts.imp fun e e' hsame => ⟨hsame.1, ?_⟩
    simp only [hsame.1]
    split
    · exact hfg _ _ hsame.2
    · exact hsame.2
  token := by
    intro e he hspare
    rw [NameTable.entries_update] at he
    obtain ⟨before, hbefore, rfl⟩ := List.mem_map.mp he
    have hne : before.1 ≠ name := fun heq => hname (heq ▸ hspare)
    simp only [if_neg hne]
    exact h.token before hbefore hspare

/-- Both tables take an index that no draft gets. -/
theorem resume (h : Embeds spare gap w other) :
    Embeds spare gap { w with nextIndex := w.nextIndex + 1 }
      { other with nextIndex := other.nextIndex + 1 } :=
  { h with
    next := by
      have hnext := h.next
      simp only
      omega }

end Embeds

/-- Two computations on tables side by side: their answers are related, or they fail for the same
reason. -/
def Abreast {α : Type} (spare : List Text) (gap : Nat) (x y : Merge α) (answers : α → α → Prop) :
    Prop :=
  InStep (Embeds spare gap) (fun e d => e.bare = d.bare) (fun _ => False) x y answers

theorem ofGrammar_abreast {α : Type} {x y : Except GrammarError α} (h : SameButPlace x y) :
    Abreast spare gap (Merge.ofGrammar x) (Merge.ofGrammar y) Eq := by
  obtain ⟨a, rfl, rfl⟩ | ⟨e, d, rfl, rfl, hbare⟩ := h.cases
  · exact InStep.of_pure rfl
  · exact InStep.of_throw (congrArg Failure.grammar hbare)

theorem alike_patternDraft {x y : Singular} (h : x.bare = y.bare) {index index' : Nat}
    (hindex : index' = index + gap) (span span' : Span) :
    (patternDraft x index span).Alike gap (patternDraft y index' span') where
  kind := rfl
  alternatives := by
    simp only [patternDraft, Alternation.bare, Alternative.bare, Body.bare, Item.bare, h]
  docs := rfl
  synthetic := rfl
  le_index := by
    simp only [patternDraft]
    omega
  index_le := by
    simp only [patternDraft]
    omega

theorem settle_abreast (kind : RuleKind) {source : Text} (hsource : source ∉ spare)
    (span span' : Span) {x y : Singular} (h : x.bare = y.bare) :
    Abreast spare gap (settle kind source span x) (settle kind source span' y)
      fun a b => a.bare = b.bare := by
  unfold settle
  by_cases hkind : kind = .production
  · rw [if_pos hkind, if_pos hkind]
    intro w other hw
    have hsymbol : (Singular.symbol source span).bare = (Singular.symbol source span').bare := by
      simp only [Singular.bare]
    show Paired _ _ _ _ ((do
        set (← Merge.ofFault (w.addPattern source x span))
        pure (.symbol source span) : Merge Singular).run.run w)
      ((do
        set (← Merge.ofFault (other.addPattern source y span'))
        pure (.symbol source span') : Merge Singular).run.run other)
    rcases addPattern_eq source x span w with ⟨hkey, heq⟩ | ⟨hnew, heq⟩
    · rcases addPattern_eq source y span' other with ⟨-, heq'⟩ | ⟨hnew', -⟩
      · rw [heq, heq']
        exact ⟨hsymbol, hw⟩
      · exact absurd ((hw.mem_keys_iff hsource).mpr hkey) hnew'
    · rcases addPattern_eq source y span' other with ⟨hkey', -⟩ | ⟨hnew', heq'⟩
      · exact absurd ((hw.mem_keys_iff hsource).mp hkey') hnew
      · rw [heq, heq']
        exact ⟨hsymbol, hw.append hsource hnew hnew' (alike_patternDraft h hw.next span span')⟩
  · rw [if_neg hkind, if_neg hkind]
    exact InStep.of_pure h

def Unspared (spare : List Text) (sources : List Text) : Prop := ∀ source ∈ sources, source ∉ spare

theorem Unspared.left {first others : List Text} (h : Unspared spare (first ++ others)) :
    Unspared spare first := fun source hsource => h source (List.mem_append_left _ hsource)

theorem Unspared.right {first others : List Text} (h : Unspared spare (first ++ others)) :
    Unspared spare others := fun source hsource => h source (List.mem_append_right _ hsource)

/-- A pattern is made of its text, wherever it stands, and then it is put where it belongs. -/
theorem pattern_abreast {α : Type} (kind : RuleKind) {source : Text} (span span' : Span)
    (hsource : Unspared spare [source]) {x y : Except GrammarError α} (h : SameButPlace x y)
    {make make' : α → Singular} (hmake : ∀ a, (make a).bare = (make' a).bare) :
    Abreast spare gap (Merge.ofGrammar x >>= fun a => settle kind source span (make a))
      (Merge.ofGrammar y >>= fun a => settle kind source span' (make' a))
      fun a b => a.bare = b.bare := by
  refine InStep.bind (ofGrammar_abreast h) ?_
  rintro a _ rfl
  exact settle_abreast kind (hsource source List.mem_cons_self) span span' (hmake a)

mutual

/-- Parts that say the same are resolved to parts that say the same. -/
theorem singular_abreast (owner : Text) (kind : RuleKind) : ∀ x y : Source.Singular,
    x.mapSpan Source.noSpan = y.mapSpan Source.noSpan → Unspared spare x.patterns →
    Abreast spare gap (singular owner kind x) (singular owner kind y) fun a b => a.bare = b.bare
  | .group alternatives span, y, hsame, hpatterns => by
    cases y with
    | group alternatives' span' =>
      simp only [Source.Singular.mapSpan, Source.Singular.group.injEq] at hsame
      simp only [Source.Singular.patterns] at hpatterns
      simp only [singular]
      refine InStep.bind (alternation_abreast owner kind alternatives alternatives' hsame.1
        hpatterns) fun a b hab => InStep.of_pure ?_
      simp only [Singular.bare, hab]
    | symbol | literal | charset | escape =>
      simp only [Source.Singular.mapSpan, reduceCtorEq] at hsame
  | .symbol name span, y, hsame, _ => by
    cases y with
    | symbol name' span' =>
      simp only [Source.Singular.mapSpan, Source.Singular.symbol.injEq] at hsame
      simp only [singular, hsame.1]
      exact InStep.of_pure (by simp only [Singular.bare])
    | group | literal | charset | escape =>
      simp only [Source.Singular.mapSpan, reduceCtorEq] at hsame
  | .literal text span, y, hsame, hpatterns => by
    cases y with
    | literal text' span' =>
      simp only [Source.Singular.mapSpan, Source.Singular.literal.injEq] at hsame
      simp only [Source.Singular.patterns] at hpatterns
      simp only [singular, ← hsame.1]
      exact pattern_abreast kind span span' hpatterns (Pattern.literal_span _ _ _ _)
        fun _ => by simp only [Singular.bare]
    | group | symbol | charset | escape =>
      simp only [Source.Singular.mapSpan, reduceCtorEq] at hsame
  | .charset text span, y, hsame, hpatterns => by
    cases y with
    | charset text' span' =>
      simp only [Source.Singular.mapSpan, Source.Singular.charset.injEq] at hsame
      simp only [Source.Singular.patterns] at hpatterns
      simp only [singular, ← hsame.1]
      exact pattern_abreast kind span span' hpatterns (Pattern.charset_span _ _ _ _)
        fun _ => by simp only [Singular.bare]
    | group | symbol | literal | escape =>
      simp only [Source.Singular.mapSpan, reduceCtorEq] at hsame
  | .escape text span, y, hsame, hpatterns => by
    cases y with
    | escape text' span' =>
      simp only [Source.Singular.mapSpan, Source.Singular.escape.injEq] at hsame
      simp only [Source.Singular.patterns] at hpatterns
      simp only [singular, ← hsame.1]
      exact pattern_abreast kind span span' hpatterns (Pattern.escape_span _ _ _ _)
        fun _ => by simp only [Singular.bare]
    | group | symbol | literal | charset =>
      simp only [Source.Singular.mapSpan, reduceCtorEq] at hsame

theorem alternation_abreast (owner : Text) (kind : RuleKind) :
    ∀ x y : List (Alternative (Source.Item Source.Singular)),
    Source.Alternation.mapSpan Source.noSpan x = Source.Alternation.mapSpan Source.noSpan y →
    Unspared spare (Source.Alternation.patterns x) →
    Abreast spare gap (alternation owner kind x) (alternation owner kind y)
      fun a b => Alternation.bare a = Alternation.bare b
  | [], y, hsame, _ => by
    cases y with
    | nil => exact InStep.of_pure rfl
    | cons => simp only [Source.Alternation.mapSpan, reduceCtorEq] at hsame
  | a :: rest, y, hsame, hpatterns => by
    cases y with
    | nil => simp only [Source.Alternation.mapSpan, reduceCtorEq] at hsame
    | cons b rest' =>
      simp only [Source.Alternation.mapSpan, List.cons.injEq] at hsame
      simp only [Source.Alternation.patterns] at hpatterns
      simp only [alternation]
      refine InStep.bind (alternative_abreast owner kind a b hsame.1 hpatterns.left)
        fun first first' hfirst => ?_
      refine InStep.bind (alternation_abreast owner kind rest rest' hsame.2 hpatterns.right)
        fun others others' hothers => InStep.of_pure ?_
      simp only [Alternation.bare, hfirst, hothers]

theorem alternative_abreast (owner : Text) (kind : RuleKind) :
    ∀ x y : Alternative (Source.Item Source.Singular),
    Source.Alternative.mapSpan Source.noSpan x = Source.Alternative.mapSpan Source.noSpan y →
    Unspared spare (Source.Alternative.patterns x) →
    Abreast spare gap (alternative owner kind x) (alternative owner kind y)
      fun a b => Alternative.bare a = Alternative.bare b
  | ⟨doc, name, items, span⟩, ⟨doc', name', items', span'⟩, hsame, hpatterns => by
    simp only [Source.Alternative.mapSpan, Alternative.mk.injEq] at hsame
    simp only [Source.Alternative.patterns] at hpatterns
    simp only [alternative]
    refine InStep.bind (body_abreast owner kind items items' hsame.2.2.1 hpatterns)
      fun a b hab => InStep.of_pure ?_
    simp only [Alternative.bare, hsame.1, hsame.2.1, hab]

theorem body_abreast (owner : Text) (kind : RuleKind) :
    ∀ x y : List (Source.Item Source.Singular),
    Source.Body.mapSpan Source.noSpan x = Source.Body.mapSpan Source.noSpan y →
    Unspared spare (Source.Body.patterns x) →
    Abreast spare gap (body owner kind x) (body owner kind y) fun a b => Body.bare a = Body.bare b
  | [], y, hsame, _ => by
    cases y with
    | nil => exact InStep.of_pure rfl
    | cons => simp only [Source.Body.mapSpan, reduceCtorEq] at hsame
  | i :: rest, y, hsame, hpatterns => by
    cases y with
    | nil => simp only [Source.Body.mapSpan, reduceCtorEq] at hsame
    | cons j rest' =>
      simp only [Source.Body.mapSpan, List.cons.injEq] at hsame
      simp only [Source.Body.patterns] at hpatterns
      simp only [body]
      refine InStep.bind (item_abreast owner kind i j hsame.1 hpatterns.left)
        fun first first' hfirst => ?_
      refine InStep.bind (body_abreast owner kind rest rest' hsame.2 hpatterns.right)
        fun others others' hothers => InStep.of_pure ?_
      simp only [Body.bare, hfirst, hothers]

theorem item_abreast (owner : Text) (kind : RuleKind) : ∀ x y : Source.Item Source.Singular,
    Source.Item.mapSpan Source.noSpan x = Source.Item.mapSpan Source.noSpan y →
    Unspared spare (Source.Item.patterns x) →
    Abreast spare gap (item owner kind x) (item owner kind y) fun a b => Item.bare a = Item.bare b
  | ⟨inner, quantifier, span⟩, ⟨inner', quantifier', span'⟩, hsame, hpatterns => by
    simp only [Source.Item.mapSpan, Source.Item.mk.injEq] at hsame
    simp only [Source.Item.patterns] at hpatterns
    simp only [item]
    refine InStep.bind (singular_abreast owner kind inner inner' hsame.1 hpatterns)
      fun a b hab => InStep.of_pure ?_
    simp only [Item.bare, hab, hsame.2.1]

end

section OneDefinition

variable {name : Text} (hname : name ∉ spare)
include hname

theorem start_abreast (d d' : Source.Definition) (hd : d.name = name) (hd' : d'.name = name)
    (kind : RuleKind) :
    Abreast spare gap (start d kind) (start d' kind) fun _ _ => True := by
  intro w other hw
  unfold start
  rw [hd, hd']
  rw [Ensures.run_get_bind, Ensures.run_get_bind]
  have hget := hw.get? hname
  generalize hcase : w.drafts.get? name = draft at hget
  generalize hcase' : other.drafts.get? name = draft' at hget
  cases hget with
  | some halike =>
    simp only [halike.kind]
    split
    · exact ⟨trivial, hw.resume⟩
    · exact Or.inl rfl
  | none =>
    have hnew := (w.drafts.get?_eq_none_iff name).mp hcase
    have hnew' := (other.drafts.get?_eq_none_iff name).mp hcase'
    simp only [NameTable.push_of_notMem _ _ hnew, NameTable.push_of_notMem _ _ hnew']
    refine ⟨trivial, hw.append hname hnew hnew' ⟨rfl, rfl, rfl, rfl, ?_, ?_⟩⟩
    · have hnext := hw.next
      simp only
      omega
    · exact Nat.le_of_eq hw.next

theorem addDoc_abreast (doc : Option Text) :
    Abreast spare gap (addDoc name doc) (addDoc name doc) fun _ _ => True := by
  unfold addDoc
  split
  · refine InStep.of_modify fun w other hw => hw.update hname fun draft draft' h => ?_
    exact { h with docs := by simp only [h.docs] }
  · exact InStep.of_pure trivial

theorem addAlternative_abreast (kind : RuleKind) {a b : Alternative (Item Singular)}
    (hab : Alternative.bare a = Alternative.bare b) :
    Abreast spare gap (addAlternative name kind a) (addAlternative name kind b)
      fun _ _ => True := by
  intro w other hw
  have htag : ∀ index, b.tag name index = a.tag name index := by
    intro index
    rw [← Alternative.tag_bare a, ← Alternative.tag_bare b, hab]
  have hget := hw.get? hname
  have hlength : ((other.drafts.get? name).map fun d => d.alternatives.length).getD 0 =
      ((w.drafts.get? name).map fun d => d.alternatives.length).getD 0 := by
    generalize w.drafts.get? name = draft at hget
    generalize other.drafts.get? name = draft' at hget
    cases hget with
    | none => rfl
    | some halike => exact halike.length_eq
  have htags : ((other.drafts.get? name).map (Draft.tags name)).getD [] =
      ((w.drafts.get? name).map (Draft.tags name)).getD [] := by
    generalize w.drafts.get? name = draft at hget
    generalize other.drafts.get? name = draft' at hget
    cases hget with
    | none => rfl
    | some halike => exact halike.tags_eq name
  unfold addAlternative
  show Paired _ _ _ _ ((if _ then _ else _ : Merge Unit).run.run w)
    ((if _ then _ else _ : Merge Unit).run.run other)
  simp only [hlength, htags, htag]
  split
  · exact Or.inl rfl
  · refine ⟨trivial, hw.update hname fun draft draft' h => { h with alternatives := ?_ }⟩
    have hbare := h.alternatives
    rw [Alternation.bare_eq_map, Alternation.bare_eq_map] at hbare
    simp only [Alternation.bare_eq_map, List.map_append, hbare, List.map_cons, List.map_nil, hab]

theorem alternatives_abreast (kind : RuleKind) : ∀ x y : Source.Alternation,
    Source.Alternation.mapSpan Source.noSpan x = Source.Alternation.mapSpan Source.noSpan y →
    Unspared spare (Source.Alternation.patterns x) →
    Abreast spare gap (x.forM (mergeAlternative name kind)) (y.forM (mergeAlternative name kind))
      fun _ _ => True := by
  intro x
  induction x with
  | nil =>
    intro y hsame _
    cases y with
    | nil => exact InStep.of_pure trivial
    | cons => simp only [Source.Alternation.mapSpan, reduceCtorEq] at hsame
  | cons a rest ih =>
    intro y hsame hpatterns
    cases y with
    | nil => simp only [Source.Alternation.mapSpan, reduceCtorEq] at hsame
    | cons b rest' =>
      simp only [Source.Alternation.mapSpan, List.cons.injEq] at hsame
      simp only [Source.Alternation.patterns] at hpatterns
      have hfirst : Abreast spare gap (mergeAlternative name kind a) (mergeAlternative name kind b)
          fun _ _ => True :=
        InStep.bind (alternative_abreast name kind a b hsame.1 hpatterns.left)
          fun _ _ hab => addAlternative_abreast hname kind hab
      exact InStep.bind hfirst fun _ _ _ => ih rest' hsame.2 hpatterns.right

end OneDefinition

theorem merge_eq (whitespaceName : Text) (d : Source.Definition) :
    merge whitespaceName d = (do
      let kind ← Merge.ofGrammar (kindOf whitespaceName d)
      start d kind
      addDoc d.name d.doc
      d.alternatives.forM (mergeAlternative d.name kind)) := rfl

/-- Merging definitions that say the same. -/
theorem merge_abreast (whitespaceName : Text) {d d' : Source.Definition} (hsame : d.bare = d'.bare)
    (hname : d.name ∉ spare)
    (hpatterns : Unspared spare (Source.Alternation.patterns d.alternatives)) :
    Abreast spare gap (merge whitespaceName d) (merge whitespaceName d') fun _ _ => True := by
  obtain ⟨hdoc, hname', hdefined, halternatives⟩ := Source.Definition.bare_eq_iff.mp hsame
  have hkind : SameButPlace (kindOf whitespaceName d) (kindOf whitespaceName d') := by
    unfold kindOf
    rw [← hname', ← hdefined]
    split
    · split
      · rfl
      · exact .refl _
    · exact .refl _
  rw [merge_eq, merge_eq, ← hname', ← hdoc]
  refine InStep.bind (ofGrammar_abreast hkind) ?_
  rintro kind _ rfl
  refine InStep.bind (start_abreast hname d d' rfl hname'.symm kind) fun _ _ _ => ?_
  refine InStep.bind (addDoc_abreast hname d.doc) fun _ _ _ => ?_
  exact alternatives_abreast hname kind _ _ halternatives hpatterns

/-- Merging rows of definitions that say the same, where no name is spare. -/
theorem forM_merge_abreast (whitespaceName : Text) : ∀ ds ds' : List Source.Definition,
    ds.map Source.Definition.bare = ds'.map Source.Definition.bare →
    Abreast [] gap (ds.forM (merge whitespaceName)) (ds'.forM (merge whitespaceName))
      fun _ _ => True := by
  intro ds
  induction ds with
  | nil =>
    intro ds' hsame
    cases ds' with
    | nil => exact InStep.of_pure trivial
    | cons => simp only [List.map_nil, List.map_cons, reduceCtorEq] at hsame
  | cons d rest ih =>
    intro ds' hsame
    cases ds' with
    | nil => simp only [List.map_nil, List.map_cons, reduceCtorEq] at hsame
    | cons d' rest' =>
      simp only [List.map_cons, List.cons.injEq] at hsame
      exact InStep.bind (merge_abreast whitespaceName hsame.1 List.not_mem_nil
        fun _ _ => List.not_mem_nil) fun _ _ _ => ih rest' hsame.2

end Workbench

end GrammarKit
