import GrammarKit.Proofs.Rule.Arrivals
import GrammarKit.Proofs.Rule.Numbering
import Mathlib.Data.List.Basic

/-!
Merging is faithful to the definitions. After a row of definitions that were read from text the
drafts are those of the row of arrivals: each draft has the place of its arrival as its index, the
draft of a name gathers the alternatives and the docstrings of all definitions of this name, and the
draft of a pattern is made of the pattern alone. A definition is followed through its merging as a
definition with the alternatives that were merged so far.
-/
namespace GrammarKit

namespace Source.Definition

def head (d : Definition) : Definition := { d with doc := none, alternatives := [] }

def upTo (d : Definition) (done : Alternation) : Definition := { d with alternatives := done }

end Source.Definition

inductive Singular.MadeOf (source : Text) : Singular → Prop where
  | literal {owner : Option Text} {matchers : List Matcher} {span : Span}
      (h : Pattern.literal ⟨source, span, owner⟩ = .ok matchers) :
      MadeOf source (.literal source matchers span)
  | charset {owner : Option Text} {matcher : Matcher} {span : Span}
      (h : Pattern.charset ⟨source, span, owner⟩ = .ok matcher) :
      MadeOf source (.charset source matcher span)
  | escape {owner : Option Text} {matcher : Matcher} {span : Span}
      (h : Pattern.escape ⟨source, span, owner⟩ = .ok matcher) :
      MadeOf source (.literal source [matcher] span)

theorem Draft.tags_append (name : Text) (draft : Draft) (a : Alternative (Item Singular)) :
    Draft.tags name { draft with alternatives := draft.alternatives ++ [a] } =
      draft.tags name ++ [a.tag name draft.alternatives.length] := by
  simp [tags, List.zipIdx_append]

/-- A draft holds what the definitions of a name amount to, in their order. -/
structure Draft.Gathers (whitespaceName name : Text) (ds : List Source.Definition) (index : Nat)
    (draft : Draft) : Prop where
  kind : ∀ d ∈ ds, Workbench.kindOf whitespaceName d = .ok draft.kind
  span : ds.head?.map Source.Definition.span = some draft.span
  docs : draft.docs = ds.filterMap Source.Definition.doc?
  alternatives : Source.Alternation.compiled name draft.kind
    (ds.flatMap Source.Definition.alternatives) = .ok draft.alternatives
  tags : draft.kind = .production → (draft.tags name).Nodup
  index : draft.index = index
  synthetic : draft.synthetic = false

namespace Draft.Gathers

open Workbench

variable {whitespaceName name : Text} {ds : List Source.Definition} {d e : Source.Definition}
  {index : Nat} {draft : Draft}

theorem begin {kind : RuleKind} (h : kindOf whitespaceName d = .ok kind) (index : Nat) :
    Gathers whitespaceName name [d.head] index ⟨kind, [], index, [], false, d.span⟩ where
  kind := by
    intro e he
    rw [List.mem_singleton.mp he]
    exact h
  span := rfl
  docs := rfl
  alternatives := rfl
  tags := fun _ => .nil
  index := rfl
  synthetic := rfl

theorem resume (h : Gathers whitespaceName name ds index draft)
    (hkind : kindOf whitespaceName d = .ok draft.kind) :
    Gathers whitespaceName name (ds ++ [d.head]) index draft where
  kind := by
    intro e he
    rcases List.mem_append.mp he with he | he
    · exact h.kind e he
    · rw [List.mem_singleton.mp he]
      exact hkind
  span := by
    obtain ⟨first, hfirst, hspan⟩ := Option.map_eq_some_iff.mp h.span
    rw [List.head?_append, hfirst, Option.some_or, Option.map_some, hspan]
  docs := by
    rw [h.docs]
    simp [Source.Definition.head, Source.Definition.doc?]
  alternatives := by
    rw [← h.alternatives]
    simp [Source.Definition.head]
  tags := h.tags
  index := h.index
  synthetic := h.synthetic

theorem kind_last (h : Gathers whitespaceName name (ds ++ [d]) index draft)
    (hkind : kindOf whitespaceName e = kindOf whitespaceName d) :
    ∀ f ∈ ds ++ [e], kindOf whitespaceName f = .ok draft.kind := by
  intro f hf
  rcases List.mem_append.mp hf with hf | hf
  · exact h.kind f (List.mem_append_left _ hf)
  · rw [List.mem_singleton.mp hf, hkind]
    exact h.kind d (by simp)

theorem span_last (h : Gathers whitespaceName name (ds ++ [d]) index draft)
    (hspan : e.span = d.span) :
    (ds ++ [e]).head?.map Source.Definition.span = some draft.span := by
  rw [← h.span]
  cases ds with
  | nil => simp [hspan]
  | cons first rest => rfl

/-- The docstring of the last definition is added. -/
theorem document (h : Gathers whitespaceName name (ds ++ [d.head]) index draft) :
    Gathers whitespaceName name (ds ++ [d.upTo []]) index
      { draft with docs := draft.docs ++ d.doc?.toList } where
  kind := h.kind_last rfl
  span := h.span_last rfl
  docs := by
    rw [h.docs, List.filterMap_append, List.filterMap_append, List.append_assoc]
    rfl
  alternatives := by
    rw [← h.alternatives, List.flatMap_append, List.flatMap_append]
    rfl
  tags := h.tags
  index := h.index
  synthetic := h.synthetic

/-- An alternative of the last definition is added. -/
theorem grow {done : Source.Alternation} {a : Alternative (Source.Item Source.Singular)}
    {b : Alternative (Item Singular)}
    (h : Gathers whitespaceName name (ds ++ [d.upTo done]) index draft)
    (hb : Source.Alternative.compiled name draft.kind a = .ok b)
    (htag : draft.kind = .production → b.tag name draft.alternatives.length ∉ draft.tags name) :
    Gathers whitespaceName name (ds ++ [d.upTo (done ++ [a])]) index
      { draft with alternatives := draft.alternatives ++ [b] } where
  kind := h.kind_last rfl
  span := h.span_last rfl
  docs := by
    rw [h.docs, List.filterMap_append, List.filterMap_append]
    rfl
  alternatives := by
    have hall := Source.Alternation.compiled_append hb h.alternatives
    simpa [Source.Definition.upTo] using hall
  tags := by
    intro hkind
    rw [Draft.tags_append, List.nodup_append]
    refine ⟨h.tags hkind, by simp, ?_⟩
    intro tag hmem other hother heq
    rw [List.mem_singleton] at hother
    exact htag hkind (hother ▸ heq ▸ hmem)
  index := h.index
  synthetic := h.synthetic

end Draft.Gathers

namespace Workbench

/-- The drafts are those of a row of arrivals, and each draft of a name gathers the definitions of
this name. -/
structure Mirrors (whitespaceName : Text) (ds : List Source.Definition) (arrivals : List Arrival)
    (w : Workbench) : Prop where
  next : w.nextIndex = arrivals.length
  name : ∀ name, .definition name ∈ arrivals → name.isName = true
  source : ∀ source, .pattern source ∈ arrivals → source.isName = false
  arrived : ∀ d ∈ ds, .definition d.name ∈ arrivals
  key : ∀ name ∈ w.drafts.keys, .definition name ∈ arrivals ∨ .pattern name ∈ arrivals
  defined : ∀ name, .definition name ∈ arrivals → ∃ draft, w.drafts.get? name = some draft ∧
    draft.Gathers whitespaceName name (Source.definitionsOf name ds)
      (arrivals.idxOf (.definition name))
  moved : ∀ source, .pattern source ∈ arrivals → ∃ x span, Singular.MadeOf source x ∧
    w.drafts.get? source = some (patternDraft x (arrivals.idxOf (.pattern source)) span)

variable {whitespaceName : Text} {ds : List Source.Definition} {arrivals : List Arrival}

theorem mirrors_empty (whitespaceName : Text) : Mirrors whitespaceName [] [] empty where
  next := rfl
  name := by simp
  source := by simp
  arrived := by simp
  key := by simp [empty, NameTable.empty, NameTable.keys]
  defined := by simp
  moved := by simp

namespace Mirrors

variable {w : Workbench}

theorem definition_mem_iff (h : w.Mirrors whitespaceName ds arrivals) {name : Text}
    (hname : name.isName = true) : name ∈ w.drafts.keys ↔ .definition name ∈ arrivals := by
  constructor
  · intro hkey
    rcases h.key name hkey with hmem | hmem
    · exact hmem
    · rw [h.source name hmem] at hname
      cases hname
  · intro hmem
    obtain ⟨draft, hget, -⟩ := h.defined name hmem
    exact (w.drafts.get?_isSome_iff name).mp (by simp [hget])

theorem pattern_mem_iff (h : w.Mirrors whitespaceName ds arrivals) {source : Text}
    (hsource : source.isName = false) : source ∈ w.drafts.keys ↔ .pattern source ∈ arrivals := by
  constructor
  · intro hkey
    rcases h.key source hkey with hmem | hmem
    · rw [h.name source hmem] at hsource
      cases hsource
    · exact hmem
  · intro hmem
    obtain ⟨x, span, -, hget⟩ := h.moved source hmem
    exact (w.drafts.get?_isSome_iff source).mp (by simp [hget])

/-- All that changes is about one name: its draft, its definitions, and how often it arrived. -/
theorem frame (h : w.Mirrors whitespaceName ds arrivals) {name : Text} (hname : name.isName = true)
    {w' : Workbench} {ds' : List Source.Definition} (more : List Arrival)
    (hmore : ∀ a ∈ more, a = .definition name) (hnext : w'.nextIndex = w.nextIndex + more.length)
    (hothers : ∀ other ≠ name, w'.drafts.get? other = w.drafts.get? other ∧
      Source.definitionsOf other ds' = Source.definitionsOf other ds)
    (hmem : .definition name ∈ arrivals ++ more)
    (hself : ∃ draft, w'.drafts.get? name = some draft ∧
      draft.Gathers whitespaceName name (Source.definitionsOf name ds')
        ((arrivals ++ more).idxOf (.definition name))) :
    w'.Mirrors whitespaceName ds' (arrivals ++ more) := by
  have hbefore : ∀ a ∈ arrivals ++ more, a ≠ .definition name → a ∈ arrivals := by
    intro a ha hne
    rcases List.mem_append.mp ha with ha | ha
    · exact ha
    · exact absurd (hmore a ha) hne
  constructor
  · rw [hnext, h.next, List.length_append]
  · intro other hother
    by_cases heq : other = name
    · rw [heq, hname]
    · exact h.name other (hbefore _ hother (by simpa using heq))
  · intro source hsource
    exact h.source source (hbefore _ hsource (by simp))
  · intro d hd
    by_cases heq : d.name = name
    · rw [heq]
      exact hmem
    · have hof : d ∈ Source.definitionsOf d.name ds' := by simpa [Source.definitionsOf] using hd
      rw [(hothers d.name heq).2] at hof
      exact List.mem_append_left _ (h.arrived d (List.mem_filter.mp hof).1)
  · intro key hkey
    by_cases heq : key = name
    · rw [heq]
      exact Or.inl hmem
    · have hkey : key ∈ w.drafts.keys := by
        rwa [← NameTable.get?_isSome_iff, (hothers key heq).1, NameTable.get?_isSome_iff] at hkey
      exact (h.key key hkey).imp (List.mem_append_left _) (List.mem_append_left _)
  · intro other hother
    by_cases heq : other = name
    · rw [heq]
      exact hself
    · have hother := hbefore _ hother (by simpa using heq)
      obtain ⟨draft, hget, hgathers⟩ := h.defined other hother
      rw [(hothers other heq).1, (hothers other heq).2, List.idxOf_append_of_mem hother]
      exact ⟨draft, hget, hgathers⟩
  · intro source hsource
    have hsource := hbefore _ hsource (by simp)
    have hne : source ≠ name := by
      intro heq
      have hpattern := h.source source hsource
      rw [heq, hname] at hpattern
      cases hpattern
    obtain ⟨x, span, hx, hget⟩ := h.moved source hsource
    rw [(hothers source hne).1, List.idxOf_append_of_mem hsource]
    exact ⟨x, span, hx, hget⟩

/-- A pattern that has not arrived before starts a draft behind the others. -/
theorem pattern (h : w.Mirrors whitespaceName ds arrivals) {source : Text}
    (hsource : source.isName = false) (hnew : source ∉ w.drafts.keys) {x : Singular}
    (hx : Singular.MadeOf source x) (span : Span) :
    Mirrors whitespaceName ds (arrivals ++ [.pattern source])
      ⟨w.drafts.append source (patternDraft x w.nextIndex span) hnew, w.nextIndex + 1⟩ := by
  have hfresh : .pattern source ∉ arrivals :=
    fun hmem => hnew ((h.pattern_mem_iff hsource).mpr hmem)
  have hkept : ∀ key ∈ w.drafts.keys, (w.drafts.append source
      (patternDraft x w.nextIndex span) hnew).get? key = w.drafts.get? key := by
    intro key hkey
    have hne : key ≠ source := fun heq => hnew (heq ▸ hkey)
    rw [NameTable.get?_append, if_neg hne]
  constructor
  · simp [h.next]
  · intro name hname
    exact h.name name (by simpa using hname)
  · intro other hother
    rcases List.mem_append.mp hother with hother | hother
    · exact h.source other hother
    · rw [List.mem_singleton, Arrival.pattern.injEq] at hother
      rw [hother, hsource]
  · exact fun d hd => List.mem_append_left _ (h.arrived d hd)
  · intro key hkey
    rw [NameTable.keys_append] at hkey
    rcases List.mem_append.mp hkey with hkey | hkey
    · exact (h.key key hkey).imp (List.mem_append_left _) (List.mem_append_left _)
    · rw [List.mem_singleton.mp hkey]
      exact Or.inr (by simp)
  · intro name hname
    have hname : .definition name ∈ arrivals := by simpa using hname
    have hkey := (h.definition_mem_iff (h.name name hname)).mpr hname
    obtain ⟨draft, hget, hgathers⟩ := h.defined name hname
    refine ⟨draft, (hkept name hkey).trans hget, ?_⟩
    rwa [List.idxOf_append_of_mem hname]
  · intro other hother
    rcases List.mem_append.mp hother with hother | hother
    · have hkey := (h.pattern_mem_iff (h.source other hother)).mpr hother
      obtain ⟨y, span', hy, hget⟩ := h.moved other hother
      refine ⟨y, span', hy, (hkept other hkey).trans ?_⟩
      rwa [List.idxOf_append_of_mem hother]
    · rw [List.mem_singleton, Arrival.pattern.injEq] at hother
      subst hother
      refine ⟨x, span, hx, ?_⟩
      rw [NameTable.get?_append, if_pos rfl, List.idxOf_append_of_notMem hfresh, h.next]
      simp

end Mirrors

/-- Adding a pattern is its arrival, if it has not arrived before. -/
theorem addPattern_mirrors {w : Workbench} (h : w.Mirrors whitespaceName ds arrivals)
    {source : Text} (hsource : source.isName = false) {x : Singular}
    (hx : Singular.MadeOf source x) (span : Span) :
    ∃ w', w.addPattern source x span = .ok w' ∧
      w'.Mirrors whitespaceName ds (Arrival.lift arrivals source) := by
  unfold Arrival.lift
  rcases addPattern_eq source x span w with ⟨hkey, heq⟩ | ⟨hnew, heq⟩
  · rw [if_pos ((h.pattern_mem_iff hsource).mp hkey)]
    exact ⟨w, heq, h⟩
  · rw [if_neg fun hmem => hnew ((h.pattern_mem_iff hsource).mpr hmem)]
    exact ⟨_, heq, h.pattern hsource hnew hx span⟩

/-- A part of a definition is compiled as it would be without any state, and meanwhile its patterns
arrive. -/
def Compiles {α : Type} (whitespaceName : Text) (ds : List Source.Definition) (kind : RuleKind)
    (x : Merge α) (sources : List Text) (result : Except GrammarError α) : Prop :=
  ∀ arrivals, Ensures (Mirrors whitespaceName ds arrivals) x
    (fun a w => w.Mirrors whitespaceName ds (Arrival.liftAll kind arrivals sources) ∧
      result = .ok a) fun _ _ => True

namespace Compiles

variable {α β : Type} {kind : RuleKind} {x : Merge α} {sources others : List Text}
  {result : Except GrammarError α}

theorem of_pure (a : α) : Compiles whitespaceName ds kind (pure a) [] (.ok a) := by
  intro arrivals
  refine Ensures.of_pure fun w hw => ⟨?_, rfl⟩
  rwa [Arrival.liftAll_nil]

theorem bind (hx : Compiles whitespaceName ds kind x sources result) {f : α → Merge β}
    {next : α → Except GrammarError β}
    (hf : ∀ a, Compiles whitespaceName ds kind (f a) others (next a)) :
    Compiles whitespaceName ds kind (x >>= f) (sources ++ others) (result >>= next) := by
  intro arrivals
  refine Ensures.bind (hx arrivals) fun a => ?_
  intro w hw
  obtain ⟨hmirrors, rfl⟩ := hw
  rw [Arrival.liftAll_append]
  exact hf a _ w hmirrors

theorem map (hx : Compiles whitespaceName ds kind x sources result) (f : α → β) :
    Compiles whitespaceName ds kind (x >>= fun a => pure (f a)) sources
      (result >>= fun a => .ok (f a)) := by
  have h := hx.bind fun a => of_pure (f a)
  rwa [List.append_nil] at h

end Compiles

theorem settle_compiles (kind : RuleKind) {source : Text} (hsource : source.isName = false)
    (span : Span) {x : Singular} (hx : Singular.MadeOf source x) :
    Compiles whitespaceName ds kind (settle kind source span x) [source]
      (.ok (.placed kind source span x)) := by
  intro arrivals
  unfold settle Arrival.liftAll Singular.placed
  by_cases hkind : kind = .production
  · simp only [if_pos hkind]
    refine Ensures.get_bind fun w hw => ?_
    obtain ⟨w', heq, hw'⟩ := addPattern_mirrors hw hsource hx span
    rw [heq]
    exact fun _ _ => ⟨hw', rfl⟩
  · simp only [if_neg hkind]
    exact Ensures.of_pure fun w hw => ⟨hw, rfl⟩

/-- A pattern is made of its text, and then it is put where it belongs. -/
theorem pattern_compiles {α : Type} (kind : RuleKind) {source : Text}
    (hsource : source.isName = false) (span : Span) {result : Except GrammarError α}
    {make : α → Singular} (hmake : ∀ a, result = .ok a → Singular.MadeOf source (make a)) :
    Compiles whitespaceName ds kind
      (Merge.ofGrammar result >>= fun a => settle kind source span (make a)) [source]
      (result >>= fun a => .ok (.placed kind source span (make a))) := by
  intro arrivals
  cases result with
  | error e => exact fun _ _ => trivial
  | ok a => exact settle_compiles kind hsource span (hmake a rfl) arrivals

mutual

theorem singular_compiles (owner : Text) (kind : RuleKind) : ∀ (x : Source.Singular),
    x.isWorded = true → Compiles whitespaceName ds kind (singular owner kind x) x.patterns
      (x.compiled owner kind)
  | .group alternatives _, h => by
    simp only [Source.Singular.isWorded, Bool.and_eq_true] at h
    simp only [singular, Source.Singular.patterns, Source.Singular.compiled]
    exact (alternation_compiles owner kind alternatives h.2).map _
  | .symbol name span, _ => by
    simp only [singular, Source.Singular.patterns, Source.Singular.compiled]
    exact Compiles.of_pure _
  | .literal text span, h => by
    simp only [Source.Singular.isWorded, Bool.not_eq_true'] at h
    simp only [singular, Source.Singular.patterns, Source.Singular.compiled]
    exact pattern_compiles kind h span fun _ hmade => .literal hmade
  | .charset text span, h => by
    simp only [Source.Singular.isWorded, Bool.not_eq_true'] at h
    simp only [singular, Source.Singular.patterns, Source.Singular.compiled]
    exact pattern_compiles kind h span fun _ hmade => .charset hmade
  | .escape text span, h => by
    simp only [Source.Singular.isWorded, Bool.not_eq_true'] at h
    simp only [singular, Source.Singular.patterns, Source.Singular.compiled]
    exact pattern_compiles kind h span fun _ hmade => .escape hmade

theorem alternation_compiles (owner : Text) (kind : RuleKind) :
    ∀ (alternatives : List (Alternative (Source.Item Source.Singular))),
    Source.Alternation.isWorded alternatives = true →
    Compiles whitespaceName ds kind (alternation owner kind alternatives)
      (Source.Alternation.patterns alternatives)
      (Source.Alternation.compiled owner kind alternatives)
  | [], _ => by
    simp only [alternation, Source.Alternation.patterns, Source.Alternation.compiled]
    exact Compiles.of_pure _
  | a :: rest, h => by
    simp only [Source.Alternation.isWorded, Bool.and_eq_true] at h
    simp only [alternation, Source.Alternation.patterns, Source.Alternation.compiled]
    refine (alternative_compiles owner kind a h.1).bind fun first => ?_
    exact (alternation_compiles owner kind rest h.2).map _

theorem alternative_compiles (owner : Text) (kind : RuleKind) :
    ∀ (a : Alternative (Source.Item Source.Singular)), Source.Alternative.isWorded a = true →
    Compiles whitespaceName ds kind (alternative owner kind a) (Source.Alternative.patterns a)
      (Source.Alternative.compiled owner kind a)
  | ⟨_, _, items, _⟩, h => by
    simp only [Source.Alternative.isWorded, Bool.and_eq_true] at h
    simp only [alternative, Source.Alternative.patterns, Source.Alternative.compiled]
    exact (body_compiles owner kind items h.2).map _

theorem body_compiles (owner : Text) (kind : RuleKind) :
    ∀ (items : List (Source.Item Source.Singular)), Source.Body.isWorded items = true →
    Compiles whitespaceName ds kind (body owner kind items) (Source.Body.patterns items)
      (Source.Body.compiled owner kind items)
  | [], _ => by
    simp only [body, Source.Body.patterns, Source.Body.compiled]
    exact Compiles.of_pure _
  | i :: rest, h => by
    simp only [Source.Body.isWorded, Bool.and_eq_true] at h
    simp only [body, Source.Body.patterns, Source.Body.compiled]
    refine (item_compiles owner kind i h.1).bind fun first => ?_
    exact (body_compiles owner kind rest h.2).map _

theorem item_compiles (owner : Text) (kind : RuleKind) :
    ∀ (i : Source.Item Source.Singular), Source.Item.isWorded i = true →
    Compiles whitespaceName ds kind (item owner kind i) (Source.Item.patterns i)
      (Source.Item.compiled owner kind i)
  | ⟨inner, _, _⟩, h => by
    simp only [Source.Item.isWorded] at h
    simp only [item, Source.Item.patterns, Source.Item.compiled]
    exact (singular_compiles owner kind inner h).map _

end

section OneDefinition

variable {d : Source.Definition} {kind : RuleKind}

/-- The last definition of a name is replaced by another one, and the draft of the name with it. -/
theorem Mirrors.update {w : Workbench} {first : Source.Definition}
    (h : w.Mirrors whitespaceName (ds ++ [first]) arrivals) (name : Text)
    (last : Source.Definition) (hfirst : first.name = name)
    (hlast : last.name = name) {w' : Workbench} (hnext : w'.nextIndex = w.nextIndex)
    (hothers : ∀ other ≠ name, w'.drafts.get? other = w.drafts.get? other)
    (hself : ∀ draft, w.drafts.get? name = some draft →
      draft.Gathers whitespaceName name (Source.definitionsOf name ds ++ [first])
        (arrivals.idxOf (.definition name)) →
      ∃ draft', w'.drafts.get? name = some draft' ∧
        draft'.Gathers whitespaceName name (Source.definitionsOf name ds ++ [last])
          (arrivals.idxOf (.definition name))) :
    w'.Mirrors whitespaceName (ds ++ [last]) arrivals := by
  have hmem : .definition name ∈ arrivals := hfirst ▸ h.arrived first (by simp)
  obtain ⟨draft, hget, hgathers⟩ := h.defined name hmem
  rw [Source.definitionsOf_append_self ds hfirst] at hgathers
  have hname := h.name name hmem
  rw [← List.append_nil arrivals] at hmem ⊢
  refine h.frame hname [] nofun hnext (fun other hne => ⟨hothers other hne, ?_⟩) hmem ?_
  · have hfirst' : first.name ≠ other := fun heq => hne (heq.symm.trans hfirst)
    have hlast' : last.name ≠ other := fun heq => hne (heq.symm.trans hlast)
    rw [Source.definitionsOf_append_other ds hfirst', Source.definitionsOf_append_other ds hlast']
  · rw [Source.definitionsOf_append_self ds hlast, List.append_nil]
    exact hself draft hget hgathers

/-- The definition of a name is reached. -/
theorem Mirrors.reach {w : Workbench} (h : w.Mirrors whitespaceName ds arrivals)
    (hname : d.name.isName = true) {w' : Workbench} (hnext : w'.nextIndex = w.nextIndex + 1)
    (hothers : ∀ other ≠ d.name, w'.drafts.get? other = w.drafts.get? other)
    (hself : ∃ draft, w'.drafts.get? d.name = some draft ∧
      draft.Gathers whitespaceName d.name (Source.definitionsOf d.name ds ++ [d.head])
        ((arrivals ++ [Arrival.definition d.name]).idxOf (.definition d.name))) :
    w'.Mirrors whitespaceName (ds ++ [d.head]) (arrivals ++ [.definition d.name]) := by
  refine h.frame hname [.definition d.name] (by simp) hnext
    (fun other hne => ⟨hothers other hne, ?_⟩) (by simp) ?_
  · exact Source.definitionsOf_append_other ds (Ne.symm hne)
  · have hhead : d.head.name = d.name := rfl
    rw [Source.definitionsOf_append_self ds hhead]
    exact hself

theorem start_mirrors (hname : d.name.isName = true) (hkind : kindOf whitespaceName d = .ok kind) :
    Ensures (Mirrors whitespaceName ds arrivals) (start d kind)
      (fun _ w => w.Mirrors whitespaceName (ds ++ [d.head]) (arrivals ++ [.definition d.name]))
      fun _ _ => True := by
  refine Ensures.get_bind fun w hw => ?_
  split
  · next draft hget =>
    split
    · next hsame =>
      refine Ensures.of_set fun _ _ => hw.reach hname rfl (fun _ _ => rfl) ?_
      have hmem : .definition d.name ∈ arrivals := by
        rw [← hw.definition_mem_iff hname, ← NameTable.get?_isSome_iff, hget]
        rfl
      obtain ⟨draft', hget', hgathers⟩ := hw.defined d.name hmem
      have heq : draft = draft' := Option.some.inj (hget.symm.trans hget')
      subst heq
      refine ⟨draft, hget, ?_⟩
      rw [List.idxOf_append_of_mem hmem]
      exact hgathers.resume (hsame ▸ hkind)
    · exact Ensures.of_throw fun _ _ => trivial
  · next hget =>
    have hnew : d.name ∉ w.drafts.keys := (w.drafts.get?_eq_none_iff d.name).mp hget
    have hfresh : .definition d.name ∉ arrivals :=
      fun hmem => hnew ((hw.definition_mem_iff hname).mpr hmem)
    have hnone : Source.definitionsOf d.name ds = [] := by
      refine Source.definitionsOf_eq_nil fun e he heq => hfresh ?_
      rw [← heq]
      exact hw.arrived e he
    rw [NameTable.push_of_notMem _ _ hnew]
    intro w' _
    refine hw.reach hname rfl (fun other hne => ?_) ⟨⟨kind, [], w.nextIndex, [], false, d.span⟩, ?_⟩
    · exact (w.drafts.get?_append d.name _ hnew other).trans (if_neg hne)
    · refine ⟨(w.drafts.get?_append d.name _ hnew d.name).trans (if_pos rfl), ?_⟩
      have hlast : [Arrival.definition d.name].idxOf (.definition d.name) = 0 :=
        List.idxOf_cons_self
      rw [hnone, List.idxOf_append_of_notMem hfresh, hlast, hw.next]
      exact Draft.Gathers.begin hkind _

theorem addDoc_mirrors (d : Source.Definition) :
    Ensures (Mirrors whitespaceName (ds ++ [d.head]) arrivals) (addDoc d.name d.doc)
      (fun _ w => w.Mirrors whitespaceName (ds ++ [d.upTo []]) arrivals) fun _ _ => True := by
  unfold addDoc
  split
  · next u doc hdoc =>
    have hsome : d.doc? = some (u :: doc) := by simp [Source.Definition.doc?, hdoc]
    refine Ensures.of_modify fun w hw => ?_
    refine hw.update d.name (d.upTo []) rfl rfl rfl (fun other hne => ?_) ?_
    · exact (w.drafts.get?_update d.name _ other).trans (if_neg hne)
    · intro draft hget hgathers
      refine ⟨{ draft with docs := draft.docs ++ [u :: doc] }, ?_, ?_⟩
      · refine (w.drafts.get?_update d.name _ d.name).trans ?_
        rw [if_pos rfl, hget, Option.map_some]
      · have hdocumented := hgathers.document
        rwa [hsome] at hdocumented
  · next hdoc =>
    have hnone : d.doc? = none := by
      cases heq : d.doc with
      | none => simp [Source.Definition.doc?, heq]
      | some doc =>
        cases doc with
        | nil => simp [Source.Definition.doc?, heq]
        | cons u doc => exact absurd heq (hdoc u doc)
    refine Ensures.of_pure fun w hw => hw.update d.name (d.upTo []) rfl rfl rfl (fun _ _ => rfl) ?_
    intro draft hget hgathers
    have hdocumented := hgathers.document
    rw [hnone, Option.toList_none, List.append_nil] at hdocumented
    exact ⟨draft, hget, hdocumented⟩

theorem addAlternative_mirrors (hkind : kindOf whitespaceName d = .ok kind)
    {done : Source.Alternation} {a : Alternative (Source.Item Source.Singular)}
    {b : Alternative (Item Singular)}
    (hb : Source.Alternative.compiled d.name kind a = .ok b) :
    Ensures (Mirrors whitespaceName (ds ++ [d.upTo done]) arrivals) (addAlternative d.name kind b)
      (fun _ w => w.Mirrors whitespaceName (ds ++ [d.upTo (done ++ [a])]) arrivals)
      fun _ _ => True := by
  refine Ensures.get_bind fun w hw => ?_
  simp only
  split
  · exact Ensures.of_throw fun _ _ => trivial
  · next hfree =>
    refine Ensures.of_modify fun w' heq => ?_
    subst heq
    refine hw.update d.name (d.upTo (done ++ [a])) rfl rfl rfl (fun other hne => ?_) ?_
    · exact (w'.drafts.get?_update d.name _ other).trans (if_neg hne)
    · intro draft hget hgathers
      have hsame : draft.kind = kind := by
        have hdraft := hgathers.kind (d.upTo done) (by simp)
        exact Except.ok.inj (hdraft.symm.trans hkind)
      subst hsame
      refine ⟨{ draft with alternatives := draft.alternatives ++ [b] }, ?_, ?_⟩
      · refine (w'.drafts.get?_update d.name _ d.name).trans ?_
        rw [if_pos rfl, hget, Option.map_some]
      · refine hgathers.grow hb fun hproduction htag => hfree ⟨hproduction, ?_⟩
        simp only [hget, Option.map_some, Option.getD_some]
        exact htag

def mergeAlternative (name : Text) (kind : RuleKind)
    (a : Alternative (Source.Item Source.Singular)) : Merge Unit := do
  let a ← alternative name kind a
  addAlternative name kind a

theorem alternative_mirrors (hkind : kindOf whitespaceName d = .ok kind)
    {a : Alternative (Source.Item Source.Singular)} (ha : Source.Alternative.isWorded a = true)
    (ds : List Source.Definition) (done : Source.Alternation) (arrivals : List Arrival) :
    Ensures (Mirrors whitespaceName (ds ++ [d.upTo done]) arrivals)
      (mergeAlternative d.name kind a)
      (fun _ w => w.Mirrors whitespaceName (ds ++ [d.upTo (done ++ [a])])
        (Arrival.liftAll kind arrivals (Source.Alternative.patterns a))) fun _ _ => True := by
  refine Ensures.bind (alternative_compiles d.name kind a ha arrivals) fun b => ?_
  intro w hw
  exact addAlternative_mirrors hkind hw.2 w hw.1

/-- The alternatives of a definition are merged one after the other. -/
theorem alternatives_mirrors (hkind : kindOf whitespaceName d = .ok kind)
    (rest : Source.Alternation) (hrest : Source.Alternation.isWorded rest = true) :
    ∀ (done : Source.Alternation) (arrivals : List Arrival),
      Ensures (Mirrors whitespaceName (ds ++ [d.upTo done]) arrivals)
        (rest.forM (mergeAlternative d.name kind))
        (fun _ w => w.Mirrors whitespaceName (ds ++ [d.upTo (done ++ rest)])
          (Arrival.liftAll kind arrivals (Source.Alternation.patterns rest))) fun _ _ => True := by
  -- Alternatives move one by one from those that are left to those that are done.
  induction rest with
  | nil =>
    intro done arrivals
    refine Ensures.of_pure fun w hw => ?_
    rwa [List.append_nil, Source.Alternation.patterns, Arrival.liftAll_nil]
  | cons a rest ih =>
    intro done arrivals
    simp only [Source.Alternation.isWorded, Bool.and_eq_true] at hrest
    have hfirst := alternative_mirrors hkind hrest.1 ds done arrivals
    have hothers := ih hrest.2 (done ++ [a])
      (Arrival.liftAll kind arrivals (Source.Alternative.patterns a))
    rw [← Arrival.liftAll_append, ← Source.Alternation.patterns, ← List.append_cons] at hothers
    exact Ensures.bind hfirst fun _ => hothers

end OneDefinition

/-- Merging a definition is its arrival. -/
theorem merge_mirrors {d : Source.Definition} (hd : d.Worded) :
    Ensures (Mirrors whitespaceName ds arrivals) (merge whitespaceName d)
      (fun _ w => w.Mirrors whitespaceName (ds ++ [d]) (Arrival.reach arrivals d))
      fun _ _ => True := by
  unfold merge
  cases hkind : kindOf whitespaceName d with
  | error e => exact fun _ _ => trivial
  | ok kind =>
    rw [Arrival.reach_eq hkind]
    have hmerged : Ensures (Mirrors whitespaceName ds arrivals) (do
        start d kind
        addDoc d.name d.doc
        d.alternatives.forM (mergeAlternative d.name kind)) (fun _ w =>
          w.Mirrors whitespaceName (ds ++ [d]) (Arrival.liftAll kind
            (arrivals ++ [.definition d.name]) (Source.Alternation.patterns d.alternatives)))
        fun _ _ => True :=
      Ensures.bind (start_mirrors hd.name hkind) fun _ => Ensures.bind (addDoc_mirrors d) fun _ =>
        alternatives_mirrors hkind d.alternatives hd.alternatives [] _
    exact hmerged

end Workbench

end GrammarKit
