import GrammarKit.Proofs.Rule.Registry
import Mathlib.Logic.Relation

/-!
Merging definitions is a row of small changes of the drafts, whether it succeeds or fails. Every
draft is added behind the others and takes the next index of the counter, and no change gives a draft
another index. So the indices increase from draft to draft, and in the rules that are handed out no
two are the same.
-/
namespace GrammarKit

namespace NameTable

theorem entries_append {α : Type} (m : NameTable α) (key : Text) (value : α) (h : key ∉ m.keys) :
    (m.append key value h).entries = m.entries ++ [(key, value)] := rfl

theorem entries_update {α : Type} (m : NameTable α) (key : Text) (f : α → α) :
    (m.update key f).entries = m.entries.map fun e => (e.1, if e.1 = key then f e.2 else e.2) := rfl

end NameTable

namespace Workbench

inductive Change : Workbench → Workbench → Prop where
  /-- The first definition of a name starts a draft. -/
  | start {w : Workbench} (kind : RuleKind) (span : Span) {name : Text}
      (hnew : name ∉ w.drafts.keys) :
      Change w ⟨w.drafts.append name ⟨kind, [], w.nextIndex, [], false, span⟩ hnew,
        w.nextIndex + 1⟩
  /-- A later definition takes an index that no draft gets. -/
  | resume (w : Workbench) : Change w { w with nextIndex := w.nextIndex + 1 }
  | pattern {w : Workbench} (x : Singular) (span : Span) {source : Text}
      (hnew : source ∉ w.drafts.keys) :
      Change w ⟨w.drafts.append source (patternDraft x w.nextIndex span) hnew, w.nextIndex + 1⟩
  | doc (w : Workbench) (name doc : Text) :
      Change w { w with
        drafts := w.drafts.update name fun draft => { draft with docs := draft.docs ++ [doc] } }
  | alternative (w : Workbench) (name : Text) (a : Alternative (Item Singular)) :
      Change w { w with
        drafts := w.drafts.update name fun draft =>
          { draft with alternatives := draft.alternatives ++ [a] } }

def Merge.Proceeds {α : Type} (x : Merge α) : Prop :=
  ∀ w, Relation.ReflTransGen Change w (x.run.run w).2

namespace Merge.Proceeds

variable {α β : Type}

theorem of_pure (a : α) : Proceeds (pure a : Merge α) := fun _ => .refl

theorem of_throw (failure : Failure) : Proceeds (throw failure : Merge α) := fun _ => .refl

theorem bind {x : Merge α} {f : α → Merge β} (hx : x.Proceeds) (hf : ∀ a, (f a).Proceeds) :
    (x >>= f).Proceeds := by
  intro w
  have hfirst := hx w
  rw [Ensures.run_bind]
  generalize x.run.run w = result at hfirst ⊢
  obtain ⟨failure | a, w'⟩ := result
  · exact hfirst
  · exact hfirst.trans (hf a w')

theorem ofGrammar (x : Except GrammarError α) : Proceeds (Merge.ofGrammar x) := by
  cases x with
  | error e => exact of_throw _
  | ok a => exact of_pure a

/-- Reading the drafts, and going on with what was read. -/
theorem get_bind {f : Workbench → Merge α}
    (h : ∀ w, Relation.ReflTransGen Change w ((f w).run.run w).2) : Proceeds (get >>= f) :=
  fun w => h w

theorem of_modify {f : Workbench → Workbench} (h : ∀ w, Change w (f w)) :
    Proceeds (modify f : Merge Unit) := fun w => .single (h w)

theorem forM {f : α → Merge Unit} (hf : ∀ a, (f a).Proceeds) (l : List α) :
    (l.forM f).Proceeds := by
  induction l with
  | nil => exact of_pure ()
  | cons a rest ih =>
    show (f a >>= fun _ => rest.forM f).Proceeds
    exact (hf a).bind fun _ => ih

end Merge.Proceeds

open Merge.Proceeds

theorem settle_proceeds (kind : RuleKind) (source : Text) (span : Span) (x : Singular) :
    (settle kind source span x).Proceeds := by
  unfold settle
  split
  · refine get_bind fun w => ?_
    rcases addPattern_eq source x span w with ⟨-, heq⟩ | ⟨hnew, heq⟩
    · rw [heq]
      exact .refl
    · rw [heq]
      exact .single (.pattern x span hnew)
  · exact of_pure x

mutual

theorem singular_proceeds (owner : Text) (kind : RuleKind) :
    ∀ x : Source.Singular, (singular owner kind x).Proceeds
  | .group alternatives _ => by
    simp only [singular]
    exact (alternation_proceeds owner kind alternatives).bind fun _ => of_pure _
  | .symbol name span => by
    simp only [singular]
    exact of_pure _
  | .literal text span => by
    simp only [singular]
    exact (ofGrammar _).bind fun _ => settle_proceeds kind text span _
  | .charset text span => by
    simp only [singular]
    exact (ofGrammar _).bind fun _ => settle_proceeds kind text span _
  | .escape text span => by
    simp only [singular]
    exact (ofGrammar _).bind fun _ => settle_proceeds kind text span _

theorem alternation_proceeds (owner : Text) (kind : RuleKind) :
    ∀ alternatives : List (Alternative (Source.Item Source.Singular)),
      (alternation owner kind alternatives).Proceeds
  | [] => by
    simp only [alternation]
    exact of_pure _
  | a :: rest => by
    simp only [alternation]
    refine (alternative_proceeds owner kind a).bind fun _ => ?_
    exact (alternation_proceeds owner kind rest).bind fun _ => of_pure _

theorem alternative_proceeds (owner : Text) (kind : RuleKind) :
    ∀ a : Alternative (Source.Item Source.Singular), (alternative owner kind a).Proceeds
  | ⟨_, _, items, _⟩ => by
    simp only [alternative]
    exact (body_proceeds owner kind items).bind fun _ => of_pure _

theorem body_proceeds (owner : Text) (kind : RuleKind) :
    ∀ items : List (Source.Item Source.Singular), (body owner kind items).Proceeds
  | [] => by
    simp only [body]
    exact of_pure _
  | i :: rest => by
    simp only [body]
    refine (item_proceeds owner kind i).bind fun _ => ?_
    exact (body_proceeds owner kind rest).bind fun _ => of_pure _

theorem item_proceeds (owner : Text) (kind : RuleKind) :
    ∀ i : Source.Item Source.Singular, (item owner kind i).Proceeds
  | ⟨inner, _, _⟩ => by
    simp only [item]
    exact (singular_proceeds owner kind inner).bind fun _ => of_pure _

end

theorem start_proceeds (d : Source.Definition) (kind : RuleKind) : (start d kind).Proceeds := by
  refine get_bind fun w => ?_
  split
  · split
    · exact .single (.resume w)
    · exact .refl
  · next hget =>
    have hnew : d.name ∉ w.drafts.keys := (w.drafts.get?_eq_none_iff d.name).mp hget
    rw [NameTable.push_of_notMem _ _ hnew]
    exact .single (.start kind d.span hnew)

theorem addDoc_proceeds (name : Text) (doc : Option Text) : (addDoc name doc).Proceeds := by
  unfold addDoc
  split
  · exact of_modify fun w => .doc w name _
  · exact of_pure ()

theorem addAlternative_proceeds (name : Text) (kind : RuleKind) (a : Alternative (Item Singular)) :
    (addAlternative name kind a).Proceeds := by
  refine get_bind fun w => ?_
  dsimp only
  split
  · exact .refl
  · exact .single (.alternative w name a)

/-- Merging a definition changes the drafts step by step. -/
theorem merge_proceeds (whitespaceName : Text) (d : Source.Definition) :
    (merge whitespaceName d).Proceeds := by
  unfold merge
  refine (ofGrammar _).bind fun kind => (start_proceeds d kind).bind fun _ => ?_
  refine (addDoc_proceeds d.name d.doc).bind fun _ => forM (fun a => ?_) d.alternatives
  exact (alternative_proceeds d.name kind a).bind fun b => addAlternative_proceeds d.name kind b

/-- Indices increase from draft to draft, and the next one is greater than all of them. -/
structure Numbered (w : Workbench) : Prop where
  increasing : w.drafts.entries.Pairwise fun a b => a.2.index < b.2.index
  lt_next : ∀ e ∈ w.drafts.entries, e.2.index < w.nextIndex

theorem empty_numbered : Numbered empty := ⟨.nil, by simp [empty, NameTable.empty]⟩

theorem Numbered.append {w : Workbench} (h : w.Numbered) {name : Text} {draft : Draft}
    (hnew : name ∉ w.drafts.keys) (hindex : draft.index = w.nextIndex) :
    Numbered ⟨w.drafts.append name draft hnew, w.nextIndex + 1⟩ := by
  constructor
  · rw [NameTable.entries_append, List.pairwise_append]
    refine ⟨h.increasing, List.pairwise_singleton _ _, ?_⟩
    intro a ha b hb
    rw [List.mem_singleton.mp hb, hindex]
    exact h.lt_next a ha
  · intro e he
    rw [NameTable.entries_append] at he
    show e.2.index < w.nextIndex + 1
    rcases List.mem_append.mp he with he | he
    · have hlt := h.lt_next e he
      omega
    · rw [List.mem_singleton.mp he, hindex]
      omega

theorem Numbered.update {w : Workbench} (h : w.Numbered) (name : Text) {f : Draft → Draft}
    (hf : ∀ draft, (f draft).index = draft.index) :
    Numbered { w with drafts := w.drafts.update name f } := by
  have hindex : ∀ e : Text × Draft, (if e.1 = name then f e.2 else e.2).index = e.2.index := by
    intro e
    by_cases heq : e.1 = name
    · rw [if_pos heq, hf]
    · rw [if_neg heq]
  constructor
  · rw [NameTable.entries_update, List.pairwise_map]
    simpa only [hindex] using h.increasing
  · intro e he
    rw [NameTable.entries_update] at he
    obtain ⟨before, hbefore, rfl⟩ := List.mem_map.mp he
    simpa only [hindex] using h.lt_next before hbefore

/-- Each change keeps the numbering. -/
theorem Change.numbered {w w' : Workbench} (h : Change w w') (hw : w.Numbered) : w'.Numbered := by
  cases h with
  | start kind span hnew => exact hw.append hnew rfl
  | resume =>
    refine ⟨hw.increasing, fun e he => ?_⟩
    exact Nat.lt_succ_of_lt (hw.lt_next e he)
  | pattern x span hnew => exact hw.append hnew rfl
  | doc name doc => exact hw.update name fun _ => rfl
  | alternative name a => exact hw.update name fun _ => rfl

theorem numbered_of_changes {w w' : Workbench} (h : Relation.ReflTransGen Change w w')
    (hw : w.Numbered) : w'.Numbered := by
  induction h with
  | refl => exact hw
  | tail _ hchange ih => exact hchange.numbered ih

end Workbench

namespace Registry

def Numbered (reg : Registry) : Prop := reg.workbench.Numbered

def KeepsNumbers (x : Action Unit) : Prop :=
  Ensures Numbered x (fun _ reg => Numbered reg) fun _ _ => True

theorem add_keepsNumbers (d : Source.Definition) : KeepsNumbers (add d) := by
  refine requireOpen_ensures (Ensures.get_bind fun reg hreg => ?_) fun _ _ _ => trivial
  have hmerged := Workbench.merge_proceeds reg.whitespaceName d reg.workbench
  have hnumbered := Workbench.numbered_of_changes hmerged hreg
  split
  · next w hrun =>
    rw [hrun] at hnumbered
    exact Ensures.of_set fun _ _ => hnumbered
  · exact fun _ _ => trivial

theorem addText_keepsNumbers (text : Text) : KeepsNumbers (addText text) := by
  refine requireOpen_ensures ?_ fun _ _ _ => trivial
  split
  · exact Ensures.of_throw fun _ _ => trivial
  · next definitions _ => exact Ensures.forM add_keepsNumbers definitions

/-- Rules of numbered drafts are in order, and no two have the same index. -/
theorem increasing_ofDistinct {w : Workbench} (hw : w.Numbered) (whitespaceName : Text) :
    (RuleSet.ofDistinct (rules w.drafts) whitespaceName (rules_nodup w.drafts)).rules.Pairwise
      fun a b => a.index < b.index := by
  have hrules : (rules w.drafts).Pairwise fun a b => a.index ≠ b.index := by
    unfold rules
    rw [List.pairwise_map]
    refine hw.increasing.imp fun {a b} hlt heq => ?_
    have hindex : a.2.index = b.2.index := Int.ofNat_inj.mp heq
    omega
  have hdistinct := (RuleSet.perm_inOrder (rules w.drafts)).symm.pairwise hrules
    (fun {_ _} hne heq => hne heq.symm)
  refine hdistinct.imp₂ (fun a b hne hle => ?_) (RuleSet.pairwise_inOrder _)
  omega

theorem close_increasing : Ensures Numbered close
    (fun rs _ => rs.rules.Pairwise fun a b => a.index < b.index) fun _ _ => True := by
  intro reg hreg
  cases hrun : close.run.run reg with
  | mk result after =>
    cases result with
    | error failure => trivial
    | ok rs =>
      obtain ⟨-, -, rfl⟩ := close_eq_ok (congrArg Prod.fst hrun)
      exact increasing_ofDistinct hreg reg.whitespaceName

end Registry

/-- In the rules of a source no two have the same index. -/
theorem Grammar.readRules_increasing {source whitespaceName : Text} {rs : RuleSet}
    (h : readRules source whitespaceName = .ok rs) :
    rs.rules.Pairwise fun a b => a.index < b.index := by
  have hrun := Ensures.bind (Registry.addText_keepsNumbers source)
    (fun _ => Registry.close_increasing) (Registry.empty whitespaceName)
    Workbench.empty_numbered
  unfold readRules at h
  simp only at h
  split at hrun
  · next rs' _ heq =>
    rw [heq] at h
    cases h
    exact hrun
  · next heq =>
    rw [heq] at h
    cases h

end GrammarKit
