import GrammarKit.Proofs.Effect
import GrammarKit.Proofs.Rule.Phrase
import GrammarKit.Rule.Draft

/-!
What merging definitions does to the drafts. A name is only ever added when it is new, so that the
table of drafts never refuses one. What a draft gets fits its kind: the patterns of a production are
moved out while it is read, and no literal is empty.
-/
namespace GrammarKit

namespace NameTable

variable {α : Type}

theorem get?_of_mem {m : NameTable α} {key : Text} {value : α} (h : (key, value) ∈ m.entries) :
    m.get? key = some value := by
  obtain ⟨entries, hnodup⟩ := m
  show entries.lookup key = some value
  induction entries with
  | nil => cases h
  | cons e rest ih =>
    rw [List.map_cons, List.nodup_cons] at hnodup
    rcases List.mem_cons.mp h with rfl | h
    · simp
    · have hne : key ≠ e.1 := by
        rintro rfl
        exact hnodup.1 (List.mem_map.mpr ⟨_, h, rfl⟩)
      have hbeq : (key == e.1) = false := by simpa using hne
      rw [List.lookup_cons, hbeq]
      exact ih hnodup.2 h

/-- A new name is never refused. -/
theorem push_of_notMem (m : NameTable α) {key : Text} (value : α) (h : key ∉ m.keys) :
    m.push key value = .ok (m.append key value h) := dif_neg h

section Entries

variable {m : NameTable α} {good : Text → α → Prop}
  (hm : ∀ name value, m.get? name = some value → good name value)
include hm

theorem forall_append {key : Text} {value : α} (h : key ∉ m.keys) (hvalue : good key value) :
    ∀ name other, (m.append key value h).get? name = some other → good name other := by
  intro name other hget
  rw [get?_append] at hget
  split at hget
  · next heq =>
    cases hget
    exact heq ▸ hvalue
  · exact hm name other hget

theorem forall_update (key : Text) {f : α → α}
    (hf : ∀ value, m.get? key = some value → good key (f value)) :
    ∀ name other, (m.update key f).get? name = some other → good name other := by
  intro name other hget
  rw [get?_update] at hget
  split at hget
  · next heq =>
    subst heq
    obtain ⟨before, hbefore, rfl⟩ := Option.map_eq_some_iff.mp hget
    exact hf before hbefore
  · exact hm name other hget

end Entries

end NameTable

/-- A literal always has a matcher. -/
theorem Pattern.isEmpty_of_literal {p : Pattern} {matchers : List Matcher}
    (h : p.literal = .ok matchers) : matchers.isEmpty = false := by
  unfold literal at h
  obtain ⟨characters, -, h⟩ := exists_of_bind_eq_ok h
  split at h
  · cases h
  · next hne =>
    cases h
    simpa using hne

def Failure.IsGrammar (failure : Failure) : Prop := ∃ e, failure = .grammar e

namespace Workbench

/-- A draft that consists of what fits its kind, and of the kind whitespace only by the name that
marks it. -/
def Fitting (whitespaceName name : Text) (draft : Draft) : Prop :=
  Alternation.all (Singular.fits draft.kind) draft.alternatives = true ∧
    (draft.kind = .whitespace → name = whitespaceName)

def Plain (whitespaceName : Text) (w : Workbench) : Prop :=
  ∀ name draft, w.drafts.get? name = some draft → Fitting whitespaceName name draft

def Holds (name : Text) (kind : RuleKind) (w : Workbench) : Prop :=
  ∃ draft, w.drafts.get? name = some draft ∧ draft.kind = kind

variable {whitespaceName : Text}

theorem empty_plain : Plain whitespaceName empty := by
  intro name draft hget
  simp [empty, NameTable.empty, NameTable.get?] at hget

theorem Plain.append {w : Workbench} (hplain : w.Plain whitespaceName) {key : Text} {draft : Draft}
    (h : key ∉ w.drafts.keys) (index : Nat) (hdraft : Fitting whitespaceName key draft) :
    Plain whitespaceName ⟨w.drafts.append key draft h, index⟩ :=
  NameTable.forall_append hplain h hdraft

theorem Plain.update {w : Workbench} (hplain : w.Plain whitespaceName) (key : Text)
    {f : Draft → Draft}
    (hkind : ∀ draft, (f draft).kind = draft.kind)
    (hf : ∀ draft, w.drafts.get? key = some draft →
      Alternation.all (Singular.fits draft.kind) (f draft).alternatives = true) :
    Plain whitespaceName { w with drafts := w.drafts.update key f } := by
  refine NameTable.forall_update hplain key fun draft hdraft => ?_
  rw [Fitting, hkind]
  exact ⟨hf draft hdraft, (hplain key draft hdraft).2⟩

theorem Holds.append {w : Workbench} {name : Text} {kind : RuleKind} (hholds : Holds name kind w)
    {key : Text} (draft : Draft) (h : key ∉ w.drafts.keys) (index : Nat) :
    Holds name kind ⟨w.drafts.append key draft h, index⟩ := by
  obtain ⟨before, hbefore, hkind⟩ := hholds
  refine ⟨before, ?_, hkind⟩
  have hne : name ≠ key := by
    rintro rfl
    rw [(w.drafts.get?_eq_none_iff name).mpr h] at hbefore
    cases hbefore
  rw [NameTable.get?_append, if_neg hne]
  exact hbefore

theorem Holds.update {w : Workbench} {name : Text} {kind : RuleKind} (hholds : Holds name kind w)
    (key : Text) {f : Draft → Draft} (hkind : ∀ draft, (f draft).kind = draft.kind) :
    Holds name kind { w with drafts := w.drafts.update key f } := by
  obtain ⟨before, hbefore, rfl⟩ := hholds
  by_cases h : name = key
  · refine ⟨f before, ?_, hkind before⟩
    rw [NameTable.get?_update, if_pos h, hbefore, Option.map_some]
  · refine ⟨before, ?_, rfl⟩
    rw [NameTable.get?_update, if_neg h]
    exact hbefore

def Merging (whitespaceName name : Text) (kind : RuleKind) (w : Workbench) : Prop :=
  w.Plain whitespaceName ∧ Holds name kind w

/-- Merging goes on with an answer that has a property, or ends with a mistake in the grammar. -/
def Merges {α : Type} (whitespaceName name : Text) (kind : RuleKind) (x : Merge α)
    (good : α → Prop) : Prop :=
  Ensures (Merging whitespaceName name kind) x
    (fun a w => Merging whitespaceName name kind w ∧ good a) (fun failure _ => failure.IsGrammar)

namespace Merges

variable {α β : Type} {name : Text} {kind : RuleKind} {good : α → Prop}

theorem of_pure {a : α} (h : good a) : Merges whitespaceName name kind (pure a) good :=
  Ensures.of_pure fun _ hw => ⟨hw, h⟩

theorem bind {x : Merge β} {f : β → Merge α} {middle : β → Prop}
    (hx : Merges whitespaceName name kind x middle)
    (hf : ∀ b, middle b → Merges whitespaceName name kind (f b) good) :
    Merges whitespaceName name kind (x >>= f) good := by
  refine Ensures.bind hx fun b => ?_
  intro w hw
  exact hf b hw.2 w hw.1

theorem ofGrammar (x : Except GrammarError α) :
    Merges whitespaceName name kind (Merge.ofGrammar x) fun a => x = .ok a := by
  cases x with
  | error e => exact Ensures.of_throw fun _ _ => ⟨e, rfl⟩
  | ok a => exact of_pure rfl

end Merges

theorem addPattern_eq (source : Text) (pattern : Singular) (span : Span) (w : Workbench) :
    (source ∈ w.drafts.keys ∧ w.addPattern source pattern span = .ok w) ∨
      ∃ h : source ∉ w.drafts.keys, w.addPattern source pattern span =
        .ok ⟨w.drafts.append source (patternDraft pattern w.nextIndex span) h,
          w.nextIndex + 1⟩ := by
  unfold addPattern
  by_cases h : source ∈ w.drafts.keys
  · exact Or.inl ⟨h, if_pos h⟩
  · refine Or.inr ⟨h, ?_⟩
    rw [if_neg h, NameTable.push_of_notMem _ _ h]
    rfl

theorem settle_merges (name : Text) (kind : RuleKind) (source : Text) (span : Span)
    {pattern : Singular} (hpattern : ∀ k ≠ .production, pattern.all (Singular.fits k) = true) :
    Merges whitespaceName name kind (settle kind source span pattern) fun x =>
      x.all (Singular.fits kind) = true := by
  unfold settle
  split
  · refine Ensures.get_bind fun w hw => ?_
    rcases addPattern_eq source pattern span w with ⟨-, heq⟩ | ⟨h, heq⟩
    · rw [heq]
      exact fun _ _ => ⟨hw, rfl⟩
    · rw [heq]
      have hdraft : Alternation.all (Singular.fits .token)
          (patternDraft pattern w.nextIndex span).alternatives = true := by
        have hall := hpattern .token (by decide)
        simp only [patternDraft, Alternation.all, Alternative.all, Body.all, Item.all, hall,
          Bool.and_self]
      exact fun _ _ => ⟨⟨hw.1.append h _ ⟨hdraft, nofun⟩, hw.2.append _ h _⟩, rfl⟩
  · next hkind => exact Merges.of_pure (hpattern kind hkind)

theorem fits_literal {text : Text} {matchers : List Matcher} {span : Span}
    (hne : matchers.isEmpty = false) (k : RuleKind) (hk : k ≠ .production) :
    (Singular.literal text matchers span).all (Singular.fits k) = true := by
  simp [Singular.all, Singular.fits, Singular.hasMatchers, hne, hk]

mutual

theorem singular_merges (name : Text) (kind : RuleKind) : ∀ (x : Source.Singular),
    Merges whitespaceName name kind (singular name kind x) fun y =>
      y.all (Singular.fits kind) = true
  | .group alternatives span => by
    simp only [singular]
    refine (alternation_merges name kind alternatives).bind fun others h => ?_
    exact Merges.of_pure (by simpa only [Singular.all] using h)
  | .symbol symbol span => by
    simp only [singular]
    exact Merges.of_pure rfl
  | .literal text span => by
    simp only [singular]
    refine (Merges.ofGrammar _).bind fun matchers h => ?_
    exact settle_merges name kind text span (fits_literal (Pattern.isEmpty_of_literal h))
  | .charset text span => by
    simp only [singular]
    refine (Merges.ofGrammar _).bind fun matcher _ => settle_merges name kind text span ?_
    intro k hk
    simp [Singular.all, Singular.fits, Singular.hasMatchers, hk]
  | .escape text span => by
    simp only [singular]
    refine (Merges.ofGrammar _).bind fun matcher _ => ?_
    exact settle_merges name kind text span (fits_literal rfl)

theorem alternation_merges (name : Text) (kind : RuleKind) :
    ∀ (alternatives : List (Alternative (Source.Item Source.Singular))),
    Merges whitespaceName name kind (alternation name kind alternatives) fun others =>
      Alternation.all (Singular.fits kind) others = true
  | [] => by
    simp only [alternation]
    exact Merges.of_pure rfl
  | a :: rest => by
    simp only [alternation]
    refine (alternative_merges name kind a).bind fun first hfirst => ?_
    refine (alternation_merges name kind rest).bind fun others hothers => Merges.of_pure ?_
    simp only [Alternation.all, hfirst, hothers, Bool.and_self]

theorem alternative_merges (name : Text) (kind : RuleKind) :
    ∀ (a : Alternative (Source.Item Source.Singular)),
    Merges whitespaceName name kind (alternative name kind a) fun b =>
      Alternative.all (Singular.fits kind) b = true
  | ⟨doc, tag, items, span⟩ => by
    simp only [alternative]
    refine (body_merges name kind items).bind fun others h => ?_
    exact Merges.of_pure (by simpa only [Alternative.all] using h)

theorem body_merges (name : Text) (kind : RuleKind) :
    ∀ (items : List (Source.Item Source.Singular)),
    Merges whitespaceName name kind (body name kind items) fun others =>
      Body.all (Singular.fits kind) others = true
  | [] => by
    simp only [body]
    exact Merges.of_pure rfl
  | i :: rest => by
    simp only [body]
    refine (item_merges name kind i).bind fun first hfirst => ?_
    refine (body_merges name kind rest).bind fun others hothers => Merges.of_pure ?_
    simp only [Body.all, hfirst, hothers, Bool.and_self]

theorem item_merges (name : Text) (kind : RuleKind) :
    ∀ (i : Source.Item Source.Singular),
    Merges whitespaceName name kind (item name kind i) fun j =>
      Item.all (Singular.fits kind) j = true
  | ⟨inner, quantifier, span⟩ => by
    simp only [item]
    refine (singular_merges name kind inner).bind fun x h => ?_
    exact Merges.of_pure (by simpa only [Item.all] using h)

end

theorem updateDraft_merges (name : Text) (kind : RuleKind) {f : Draft → Draft}
    (hkind : ∀ draft, (f draft).kind = draft.kind)
    (hf : ∀ draft, Alternation.all (Singular.fits kind) draft.alternatives = true →
      Alternation.all (Singular.fits kind) (f draft).alternatives = true) :
    Merges whitespaceName name kind (updateDraft name f) fun _ => True := by
  refine Ensures.of_modify fun w hw => ⟨⟨?_, hw.2.update name hkind⟩, trivial⟩
  refine hw.1.update name hkind ?_
  intro draft hdraft
  obtain ⟨other, hother, rfl⟩ := hw.2
  rw [hdraft] at hother
  cases hother
  exact hf draft (hw.1 name draft hdraft).1

theorem addDoc_merges (name : Text) (kind : RuleKind) (doc : Option Text) :
    Merges whitespaceName name kind (addDoc name doc) fun _ => True := by
  unfold addDoc
  split
  · exact updateDraft_merges name kind (fun _ => rfl) fun _ h => h
  · exact Merges.of_pure trivial

theorem all_append {p : Singular → Bool} {alternatives : Alternation}
    {a : Alternative (Item Singular)} (h : Alternation.all p alternatives = true)
    (ha : Alternative.all p a = true) : Alternation.all p (alternatives ++ [a]) = true := by
  induction alternatives with
  | nil => simp only [List.nil_append, Alternation.all, ha, Bool.and_self]
  | cons b rest ih =>
    simp only [Alternation.all, Bool.and_eq_true] at h
    simp only [List.cons_append, Alternation.all, h.1, ih h.2, Bool.and_self]

theorem addAlternative_merges (name : Text) (kind : RuleKind) (a : Alternative (Item Singular))
    (ha : Alternative.all (Singular.fits kind) a = true) :
    Merges whitespaceName name kind (addAlternative name kind a) fun _ => True := by
  refine Ensures.get_bind fun w hw => ?_
  simp only
  split
  · exact Ensures.of_throw fun _ _ => ⟨_, rfl⟩
  · have h : Merges whitespaceName name kind
        (updateDraft name fun d => { d with alternatives := d.alternatives ++ [a] })
        fun _ => True :=
      updateDraft_merges name kind (fun _ => rfl) fun draft hall => all_append hall ha
    refine h.imp ?_ (fun _ _ h => h) (fun _ _ h => h)
    rintro _ rfl
    exact hw

theorem name_of_kindOf {d : Source.Definition} (h : kindOf whitespaceName d = .ok .whitespace) :
    d.name = whitespaceName := by
  unfold kindOf at h
  split at h
  · split at h
    · cases h
    · cases h
  · split at h
    · assumption
    · cases h

/-- The kind that a definition asks for is the kind of its draft from the start. -/
theorem start_ensures (d : Source.Definition) {kind : RuleKind}
    (hkind : kindOf whitespaceName d = .ok kind) :
    Ensures (Plain whitespaceName) (start d kind) (fun _ w => Merging whitespaceName d.name kind w)
      (fun failure _ => failure.IsGrammar) := by
  refine Ensures.get_bind fun w hw => ?_
  split
  · next draft hget =>
    split
    · next hkind => exact Ensures.of_set fun _ _ => ⟨hw, draft, hget, hkind⟩
    · exact Ensures.of_throw fun _ _ => ⟨_, rfl⟩
  · next hget =>
    have hnew : d.name ∉ w.drafts.keys := (w.drafts.get?_eq_none_iff d.name).mp hget
    rw [NameTable.push_of_notMem _ _ hnew]
    intro w' _
    have hfitting : Fitting whitespaceName d.name ⟨kind, [], w.nextIndex, [], false, d.span⟩ :=
      ⟨rfl, fun h => name_of_kindOf (h ▸ hkind)⟩
    refine ⟨hw.append hnew _ hfitting, ⟨kind, [], w.nextIndex, [], false, d.span⟩, ?_, rfl⟩
    exact (w.drafts.get?_append d.name _ hnew d.name).trans (if_pos rfl)

theorem forM_merges {α : Type} {name : Text} {kind : RuleKind} {f : α → Merge Unit}
    (hf : ∀ a, Merges whitespaceName name kind (f a) fun _ => True) (l : List α) :
    Merges whitespaceName name kind (l.forM f) fun _ => True := by
  induction l with
  | nil => exact Merges.of_pure trivial
  | cons a rest ih =>
    show Merges whitespaceName name kind (f a >>= fun _ => rest.forM f) fun _ => True
    exact (hf a).bind fun _ _ => ih

/-- Merging keeps productions plain, and it fails by a mistake in the grammar or not at all. -/
theorem merge_ensures (whitespaceName : Text) (d : Source.Definition) :
    Ensures (Plain whitespaceName) (merge whitespaceName d) (fun _ w => w.Plain whitespaceName)
      (fun failure _ => failure.IsGrammar) := by
  unfold merge
  cases hkind : kindOf whitespaceName d with
  | error e => exact fun w hw => ⟨e, rfl⟩
  | ok kind =>
    have halternatives : Merges whitespaceName d.name kind (d.alternatives.forM fun a => do
        let a ← alternative d.name kind a
        addAlternative d.name kind a) fun _ => True := by
      refine forM_merges (fun a => ?_) d.alternatives
      refine (alternative_merges d.name kind a).bind fun b hb => ?_
      exact addAlternative_merges d.name kind b hb
    have hrest : Merges whitespaceName d.name kind (do
        addDoc d.name d.doc
        d.alternatives.forM fun a => do
          let a ← alternative d.name kind a
          addAlternative d.name kind a) fun _ => True :=
      (addDoc_merges d.name kind d.doc).bind fun _ _ => halternatives
    have h := Ensures.bind (start_ensures d hkind) fun _ =>
      hrest.imp (fun _ h => h) (fun _ _ h => h.1.1) (fun _ _ h => h)
    exact fun w hw => h w hw

end Workbench

end GrammarKit
