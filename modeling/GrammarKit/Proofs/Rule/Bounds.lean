import GrammarKit.Proofs.Pattern.Bounds
import GrammarKit.Proofs.Rule.Registry

/-!
Places of rules. Definitions are merged with the spans they were read with, and a pattern that is
moved out of a production takes its span along. Main statement: the rules of a source, their
alternatives and their references all lie in the source, and so does whatever keeps it from having
rules.
-/
namespace GrammarKit

namespace FailsWithin

variable {length : Nat} {α β : Type}

theorem forM {f : α → Except GrammarError Unit} {l : List α}
    (h : ∀ a ∈ l, FailsWithin length (f a)) : FailsWithin length (l.forM f) := by
  induction l with
  | nil => exact of_ok _
  | cons a rest ih =>
    rw [List.forall_mem_cons] at h
    exact bind h.1 fun _ _ => ih h.2

theorem mapM {f : α → Except GrammarError β} {l : List α}
    (h : ∀ a ∈ l, FailsWithin length (f a)) : FailsWithin length (l.mapM f) := by
  induction l with
  | nil => exact of_ok _
  | cons a rest ih =>
    rw [List.forall_mem_cons] at h
    rw [List.mapM_cons]
    exact bind h.1 fun _ _ => bind (ih h.2) fun _ _ => of_ok _

end FailsWithin

def Failure.Within (length : Nat) (failure : Failure) : Prop :=
  ∀ e, failure = .grammar e → e.Within length

theorem Failure.within_grammar {length : Nat} {e : GrammarError} (h : e.Within length) :
    (Failure.grammar e).Within length := by
  intro e' heq
  cases heq
  exact h

theorem Failure.within_fault (length : Nat) (f : Fault) : (Failure.fault f).Within length := by
  intro e heq
  cases heq

structure Alternative.Within (length : Nat) (a : Alternative (Item Singular)) : Prop where
  span : a.span.Within length
  references : ∀ x ∈ Alternative.references a, x.span.Within length

structure Rule.Within (length : Nat) (r : Rule) : Prop where
  span : r.span.Within length
  alternatives : ∀ a ∈ r.alternatives, Alternative.Within length a

theorem Alternation.references_eq_flatMap (alternatives : Alternation) :
    Alternation.references alternatives = alternatives.flatMap Alternative.references := by
  induction alternatives with
  | nil => rfl
  | cons a rest ih => simp only [Alternation.references, List.flatMap_cons, ih]

theorem Rule.Within.references {length : Nat} {r : Rule} (h : r.Within length) :
    ∀ x ∈ r.references, x.span.Within length := by
  intro x hx
  rw [Rule.references, Alternation.references_eq_flatMap, List.mem_flatMap] at hx
  obtain ⟨a, ha, hx⟩ := hx
  exact (h.alternatives a ha).references x hx

namespace Workbench

def Within (length : Nat) (w : Workbench) : Prop :=
  ∀ name draft, w.drafts.get? name = some draft → (draft.toRule name).Within length

variable {length : Nat}

theorem empty_within : Within length empty := by
  intro name draft hget
  simp [empty, NameTable.empty, NameTable.get?] at hget

theorem Within.append {w : Workbench} (hw : w.Within length) {key : Text} {draft : Draft}
    (h : key ∉ w.drafts.keys) (index : Nat) (hdraft : (draft.toRule key).Within length) :
    Within length ⟨w.drafts.append key draft h, index⟩ :=
  NameTable.forall_append hw h hdraft

theorem Within.update {w : Workbench} (hw : w.Within length) (key : Text) {f : Draft → Draft}
    (hf : ∀ draft, (draft.toRule key).Within length → ((f draft).toRule key).Within length) :
    Within length { w with drafts := w.drafts.update key f } :=
  NameTable.forall_update hw key fun draft hdraft => hf draft (hw key draft hdraft)

/-- Merging goes on with drafts in a text and an answer that has a property, or it fails at a place
in the text. -/
def MergesWithin {α : Type} (length : Nat) (x : Merge α) (good : α → Prop) : Prop :=
  Ensures (Within length) x (fun a w => w.Within length ∧ good a)
    (fun failure _ => failure.Within length)

namespace MergesWithin

variable {α β : Type} {good : α → Prop}

theorem of_pure {a : α} (h : good a) : MergesWithin length (pure a) good :=
  Ensures.of_pure fun _ hw => ⟨hw, h⟩

theorem bind {x : Merge β} {f : β → Merge α} {middle : β → Prop}
    (hx : MergesWithin length x middle) (hf : ∀ b, middle b → MergesWithin length (f b) good) :
    MergesWithin length (x >>= f) good := by
  refine Ensures.bind hx fun b => ?_
  intro w hw
  exact hf b hw.2 w hw.1

theorem ofGrammar {x : Except GrammarError α} (h : FailsWithin length x) :
    MergesWithin length (Merge.ofGrammar x) fun _ => True := by
  cases x with
  | error e => exact Ensures.of_throw fun _ _ => Failure.within_grammar (h e rfl)
  | ok a => exact of_pure trivial

theorem forM {f : β → Merge Unit} {l : List β}
    (hf : ∀ b ∈ l, MergesWithin length (f b) fun _ => True) :
    MergesWithin length (l.forM f) fun _ => True := by
  have h : Ensures (Within length) (l.forM f) (fun _ w => w.Within length)
      (fun failure _ => failure.Within length) :=
    Ensures.forM_of_mem fun b hb => (hf b hb).imp (fun _ h => h) (fun _ _ h => h.1) fun _ _ h => h
  exact h.imp (fun _ h => h) (fun _ _ h => ⟨h, trivial⟩) fun _ _ h => h

end MergesWithin

/-- A pattern refers to nothing, and the symbol in its place stands where it stood. -/
theorem settle_within (kind : RuleKind) (source : Text) {span : Span} (hspan : span.Within length)
    {pattern : Singular} (hpattern : pattern.references = []) :
    MergesWithin length (settle kind source span pattern) fun x =>
      ∀ r ∈ x.references, r.span.Within length := by
  unfold settle
  split
  · refine Ensures.get_bind fun w hw => ?_
    have hsymbol : ∀ r ∈ (Singular.symbol source span).references, r.span.Within length := by
      simp only [Singular.references]
      exact List.forall_mem_singleton.mpr hspan
    rcases addPattern_eq source pattern span w with ⟨-, heq⟩ | ⟨h, heq⟩
    · rw [heq]
      exact fun _ _ => ⟨hw, hsymbol⟩
    · rw [heq]
      have hdraft : ((patternDraft pattern w.nextIndex span).toRule source).Within length := by
        refine ⟨hspan, List.forall_mem_singleton.mpr ⟨hspan, ?_⟩⟩
        simp only [Alternative.references, Body.references, Item.references, hpattern,
          List.nil_append]
        nofun
      exact fun _ _ => ⟨hw.append h _ hdraft, hsymbol⟩
  · refine MergesWithin.of_pure ?_
    rw [hpattern]
    nofun

theorem pattern_within {α : Type} (kind : RuleKind) (source : Text) {span : Span}
    (hspan : span.Within length) {x : Except GrammarError α} (hx : FailsWithin length x)
    {make : α → Singular} (hmake : ∀ a, (make a).references = []) :
    MergesWithin length (Merge.ofGrammar x >>= fun a => settle kind source span (make a)) fun y =>
      ∀ r ∈ y.references, r.span.Within length :=
  (MergesWithin.ofGrammar hx).bind fun a _ => settle_within kind source hspan (hmake a)

section Parts

open Lexeme (Ranged)

mutual

/-- What a part comes to refers to places in the text, if the part is spelled there. -/
theorem singular_within (owner : Text) (kind : RuleKind) : ∀ (x : Source.Singular)
    {ls : List Lexeme}, Ranged length ls → x.Spelled ls →
    MergesWithin length (singular owner kind x) fun y =>
      ∀ r ∈ y.references, r.span.Within length
  | .group alternatives span, ls, hls, hspelled => by
    simp only [Source.Singular.Spelled] at hspelled
    obtain ⟨-, opening, inside, closing, rfl, -, hinside, -⟩ := hspelled
    simp only [singular]
    refine (alternation_within owner kind alternatives fun a ha => ?_).bind fun others h => ?_
    · obtain ⟨part, hsub, ha⟩ := hinside.exists_of_mem a ha
      exact ⟨part, hls.tail.left.sublist hsub, ha⟩
    · refine MergesWithin.of_pure ?_
      rw [Singular.references, Alternation.references_eq_flatMap]
      exact List.forall_mem_flatMap.mpr fun a ha => (h a ha).references
  | .symbol name span, ls, hls, hspelled => by
    simp only [Source.Singular.Spelled] at hspelled
    simp only [singular]
    refine MergesWithin.of_pure ?_
    simp only [Singular.references]
    exact List.forall_mem_singleton.mpr (hls.span_within hspelled.1)
  | .literal text span, ls, hls, hspelled => by
    simp only [Source.Singular.Spelled] at hspelled
    have hspan := hls.span_within hspelled.1
    have hsized := hls.span_sized hspelled.1 hspelled.2 nofun
    simp only [singular]
    refine pattern_within kind text hspan (Pattern.literal_failsWithin hspan hsized) fun _ => ?_
    simp only [Singular.references]
  | .charset text span, ls, hls, hspelled => by
    simp only [Source.Singular.Spelled] at hspelled
    have hspan := hls.span_within hspelled.1
    have hsized := hls.span_sized hspelled.1 hspelled.2 nofun
    simp only [singular]
    refine pattern_within kind text hspan (Pattern.charset_failsWithin hspan hsized) fun _ => ?_
    simp only [Singular.references]
  | .escape text span, ls, hls, hspelled => by
    simp only [Source.Singular.Spelled] at hspelled
    have hspan := hls.span_within hspelled.1
    have hsized := hls.span_sized hspelled.1 hspelled.2 nofun
    simp only [singular]
    refine pattern_within kind text hspan (Pattern.escape_failsWithin hspan hsized) fun _ => ?_
    simp only [Singular.references]

theorem alternation_within (owner : Text) (kind : RuleKind) :
    ∀ (alternatives : List (Alternative (Source.Item Source.Singular))),
    (∀ a ∈ alternatives, ∃ ls, Ranged length ls ∧ Source.Alternative.Spelled a ls) →
    MergesWithin length (alternation owner kind alternatives) fun others =>
      ∀ a ∈ others, Alternative.Within length a
  | [], _ => by
    simp only [alternation]
    exact MergesWithin.of_pure nofun
  | a :: rest, h => by
    obtain ⟨⟨ls, hls, ha⟩, hrest⟩ := List.forall_mem_cons.mp h
    simp only [alternation]
    refine (alternative_within owner kind a hls ha).bind fun first hfirst => ?_
    refine (alternation_within owner kind rest hrest).bind fun others hothers => ?_
    exact MergesWithin.of_pure (List.forall_mem_cons.mpr ⟨hfirst, hothers⟩)

theorem alternative_within (owner : Text) (kind : RuleKind) :
    ∀ (a : Alternative (Source.Item Source.Singular)) {ls : List Lexeme}, Ranged length ls →
    Source.Alternative.Spelled a ls →
    MergesWithin length (alternative owner kind a) (Alternative.Within length)
  | ⟨doc, tag, items, span⟩, ls, hls, hspelled => by
    simp only [Source.Alternative.Spelled] at hspelled
    obtain ⟨hspans, docs, inside, names, rfl, -, hinside, -⟩ := hspelled
    have hspan := hls.span_within hspans
    simp only [alternative]
    refine (body_within owner kind items hls.right.left hinside).bind fun others h => ?_
    exact MergesWithin.of_pure ⟨hspan, by simpa only [Alternative.references] using h⟩

theorem body_within (owner : Text) (kind : RuleKind) :
    ∀ (items : List (Source.Item Source.Singular)) {ls : List Lexeme}, Ranged length ls →
    Source.Body.Spelled items ls →
    MergesWithin length (body owner kind items) fun others =>
      ∀ r ∈ Body.references others, r.span.Within length
  | [], ls, _, _ => by
    simp only [body]
    exact MergesWithin.of_pure nofun
  | i :: rest, ls, hls, hspelled => by
    simp only [Source.Body.Spelled] at hspelled
    obtain ⟨part, after, rfl, hi, hrest⟩ := hspelled
    simp only [body]
    refine (item_within owner kind i hls.left hi).bind fun first hfirst => ?_
    refine (body_within owner kind rest hls.right hrest).bind fun others hothers => ?_
    refine MergesWithin.of_pure ?_
    simp only [Body.references]
    exact List.forall_mem_append.mpr ⟨hfirst, hothers⟩

theorem item_within (owner : Text) (kind : RuleKind) :
    ∀ (i : Source.Item Source.Singular) {ls : List Lexeme}, Ranged length ls →
    Source.Item.Spelled i ls →
    MergesWithin length (item owner kind i) fun j =>
      ∀ r ∈ Item.references j, r.span.Within length
  | ⟨inner, quantifier, span⟩, ls, hls, hspelled => by
    simp only [Source.Item.Spelled] at hspelled
    obtain ⟨-, first, signs, rfl, hinner, -⟩ := hspelled
    simp only [item]
    refine (singular_within owner kind inner hls.left hinner).bind fun x h => ?_
    exact MergesWithin.of_pure (by simpa only [Item.references] using h)

end

end Parts

theorem kindOf_failsWithin (whitespaceName : Text) {d : Source.Definition}
    (hspan : d.span.Within length) : FailsWithin length (kindOf whitespaceName d) := by
  unfold kindOf
  split
  · split
    · exact .of_error ⟨_, rfl, hspan⟩
    · exact .of_ok _
  · exact .of_ok _

theorem start_within {d : Source.Definition} (hspan : d.span.Within length) (kind : RuleKind) :
    MergesWithin length (start d kind) fun _ => True := by
  refine Ensures.get_bind fun w hw => ?_
  split
  · split
    · exact Ensures.of_set fun _ _ => ⟨hw, trivial⟩
    · exact Ensures.of_throw fun _ _ => Failure.within_grammar ⟨_, rfl, hspan⟩
  · next hget =>
    have hnew : d.name ∉ w.drafts.keys := (w.drafts.get?_eq_none_iff d.name).mp hget
    rw [NameTable.push_of_notMem _ _ hnew]
    exact fun _ _ => ⟨hw.append hnew _ ⟨hspan, nofun⟩, trivial⟩

theorem updateDraft_within (name : Text) {f : Draft → Draft}
    (hf : ∀ draft, (draft.toRule name).Within length → ((f draft).toRule name).Within length) :
    MergesWithin length (updateDraft name f) fun _ => True :=
  Ensures.of_modify fun _ hw => ⟨hw.update name hf, trivial⟩

theorem addDoc_within (name : Text) (doc : Option Text) :
    MergesWithin length (addDoc name doc) fun _ => True := by
  unfold addDoc
  split
  · exact updateDraft_within name fun _ h => ⟨h.span, h.alternatives⟩
  · exact MergesWithin.of_pure trivial

theorem addAlternative_within (name : Text) (kind : RuleKind) {a : Alternative (Item Singular)}
    (ha : Alternative.Within length a) :
    MergesWithin length (addAlternative name kind a) fun _ => True := by
  refine Ensures.get_bind fun w hw => ?_
  simp only
  split
  · exact Ensures.of_throw fun _ _ => Failure.within_grammar ⟨_, rfl, ha.span⟩
  · have h : MergesWithin length
        (updateDraft name fun d => { d with alternatives := d.alternatives ++ [a] })
        fun _ => True := by
      refine updateDraft_within name fun _ h => ⟨h.span, ?_⟩
      exact List.forall_mem_append.mpr ⟨h.alternatives, List.forall_mem_singleton.mpr ha⟩
    refine h.imp ?_ (fun _ _ h => h) (fun _ _ h => h)
    rintro _ rfl
    exact hw

/-- A definition that is spelled in the text leaves its rules there, or it is wrong at a place
there. -/
theorem merge_within (whitespaceName : Text) {d : Source.Definition} {ls : List Lexeme}
    (hls : Lexeme.Ranged length ls) (hspelled : d.Spelled ls) :
    MergesWithin length (merge whitespaceName d) fun _ => True := by
  obtain ⟨hspans, docs, name, sign, inside, semicolon, rfl, -, -, -, hinside, -⟩ := hspelled
  have hspan := hls.span_within hspans
  refine (MergesWithin.ofGrammar (kindOf_failsWithin whitespaceName hspan)).bind fun kind _ => ?_
  refine (start_within hspan kind).bind fun _ _ => ?_
  refine (addDoc_within d.name d.doc).bind fun _ _ => MergesWithin.forM fun a ha => ?_
  obtain ⟨part, hsub, ha⟩ := hinside.exists_of_mem a ha
  have hpart := hls.right.tail.tail.left.sublist hsub
  exact (alternative_within d.name kind a hpart ha).bind fun b hb =>
    addAlternative_within d.name kind hb

end Workbench

namespace Registry

structure Within (length : Nat) (reg : Registry) : Prop where
  workbench : reg.workbench.Within length
  failure : ∀ e, reg.failure = some e → e.Within length

theorem empty_within (whitespaceName : Text) (length : Nat) :
    (empty whitespaceName).Within length where
  workbench := Workbench.empty_within
  failure e heq := by cases heq

variable {length : Nat}

theorem requireOpen_within {α : Type} {x : Unit → Action α} {post : α → Registry → Prop}
    (h : Ensures (Within length) (x ()) post fun failure _ => failure.Within length) :
    Ensures (Within length) (requireOpen >>= x) post fun failure _ => failure.Within length :=
  requireOpen_ensures h fun _ _ _ => Failure.within_fault length _

theorem add_within {d : Source.Definition} {ls : List Lexeme} (hls : Lexeme.Ranged length ls)
    (hspelled : d.Spelled ls) :
    Ensures (Within length) (add d) (fun _ reg => reg.Within length)
      (fun failure _ => failure.Within length) := by
  refine requireOpen_within (Ensures.get_bind fun reg hreg => ?_)
  have hmerge := Workbench.merge_within reg.whitespaceName hls hspelled
  split
  · next w hrun =>
    exact Ensures.of_set fun _ _ => ⟨(hmerge.answer hreg.workbench hrun).1, hreg.failure⟩
  · next failure w hrun => exact fun _ _ => hmerge.failure hreg.workbench hrun

theorem addText_within (text : Text) :
    Ensures (Within text.length) (addText text) (fun _ reg => reg.Within text.length)
      (fun failure _ => failure.Within text.length) := by
  refine requireOpen_within ?_
  split
  · next e hread =>
    exact Ensures.of_throw fun _ _ =>
      Failure.within_grammar (Source.read_failsWithin text e hread)
  · next definitions hread =>
    refine Ensures.forM_of_mem fun d hd => ?_
    obtain ⟨ls, hls, hspelled⟩ := Source.exists_ranged_of_read hread hd
    exact add_within hls hspelled

theorem checkReference_failsWithin (drafts : NameTable Draft) (r : Rule) {x : Reference}
    (hx : x.span.Within length) : FailsWithin length (checkReference drafts r x) := by
  unfold checkReference
  split
  · exact .of_error ⟨_, rfl, hx⟩
  · split
    · exact .of_error ⟨_, rfl, hx⟩
    · exact .of_ok _

theorem checkReferences_failsWithin (drafts : NameTable Draft) {rules : List Rule}
    (hrules : ∀ r ∈ rules, r.Within length) :
    FailsWithin length (checkReferences drafts rules) := by
  refine .forM fun r hr => .forM fun x hx => ?_
  exact checkReference_failsWithin drafts r ((hrules r hr).references x hx)

theorem close_within : Ensures (Within length) close (fun rs _ => ∀ r ∈ rs.rules, r.Within length)
    (fun failure _ => failure.Within length) := by
  refine requireOpen_within (Ensures.get_bind fun reg hreg => ?_)
  split
  · next e hfailure =>
    exact Ensures.of_throw fun _ _ => Failure.within_grammar (hreg.failure e hfailure)
  · have hset : Ensures (fun other => other = reg) (set { reg with closed := true } : Action Unit)
        (fun _ _ => True) (fun failure _ => failure.Within length) :=
      Ensures.of_set fun _ _ => trivial
    have hrules : ∀ r ∈ rules reg.workbench.drafts, r.Within length := by
      intro r hr
      obtain ⟨name, draft, hget, rfl⟩ := mem_rules_iff.mp hr
      exact hreg.workbench name draft hget
    refine Ensures.bind hset fun _ => ?_
    simp only
    split
    · next e hcheck =>
      have hfails := checkReferences_failsWithin reg.workbench.drafts hrules
      exact Ensures.of_throw fun _ _ => Failure.within_grammar (hfails e hcheck)
    · rw [RuleSet.ofRules, dif_pos (rules_nodup _)]
      exact Ensures.of_pure fun _ _ r hr => hrules r ((RuleSet.perm_inOrder _).mem_iff.mp hr)

end Registry

/-- Reading a source comes to rules in it, or to a failure there. -/
theorem Grammar.readRules_within (source whitespaceName : Text) :
    (∀ rs, readRules source whitespaceName = .ok rs → ∀ r ∈ rs.rules, r.Within source.length) ∧
      ∀ failure, readRules source whitespaceName = .error failure →
        failure.Within source.length := by
  have hensures := Ensures.bind (Registry.addText_within source) fun _ => Registry.close_within
  have hempty := Registry.empty_within whitespaceName source.length
  constructor
  · intro rs hrs
    exact hensures.answer hempty (Prod.ext hrs rfl)
  · intro failure hfails
    exact hensures.failure hempty (Prod.ext hfails rfl)

end GrammarKit
