import GrammarKit.Proofs.Rule.Outcome
import GrammarKit.Proofs.Rule.Variants
import Mathlib.Data.List.Nodup

/-!
What a registry hands out is well formed, whatever texts it was given and in whatever pieces. A text
that cannot be read changes nothing, and after a definition that cannot be merged there are no
rules. Otherwise each rule is what its definitions come to or what a pattern was moved into, and
these are well formed because the reader leaves nothing empty and names are not patterns.
-/
namespace GrammarKit

mutual

def Singular.isFilled : Singular → Bool
  | .group alternatives => !alternatives.isEmpty && Alternation.isFilled alternatives
  | .symbol .. => true
  | .literal _ matchers _ => !matchers.isEmpty
  | .charset .. => true

def Alternation.isFilled : List (Alternative (Item Singular)) → Bool
  | [] => true
  | a :: rest => Alternative.isFilled a && Alternation.isFilled rest

def Alternative.isFilled : Alternative (Item Singular) → Bool
  | ⟨_, _, items, _⟩ => !items.isEmpty && Body.isFilled items

def Body.isFilled : List (Item Singular) → Bool
  | [] => true
  | i :: rest => Item.isFilled i && Body.isFilled rest

def Item.isFilled : Item Singular → Bool
  | ⟨inner, _⟩ => Singular.isFilled inner

end

def Singular.isSymbol : Singular → Bool
  | .symbol .. => true
  | _ => false

def Rule.pattern? (r : Rule) : Option Text :=
  match r.alternatives with
  | [⟨_, _, [⟨x, .one⟩], _⟩] => x.source?
  | _ => none

def NodeType.ofRule (r : Rule) : NodeType where
  rule := r.name
  doc := r.doc
  variants := r.alternatives.zipIdx.map fun (a, i) => Variant.ofAlternative r.name a i

/-- Rules as every later stage may take them. -/
structure RuleSet.WellFormed (rs : RuleSet) : Prop where
  names : (rs.rules.map Rule.name).Nodup
  indices : rs.rules.Pairwise fun a b => a.index < b.index
  /-- Every symbol has a rule, and rules of characters do not refer to productions. -/
  references : ∀ r ∈ rs.rules, ∀ x ∈ r.references, ∃ target ∈ rs.rules, target.name = x.name ∧
    (r.kind ≠ .production → target.kind ≠ .production)
  symbols : ∀ r ∈ rs.rules, r.kind = .production →
    Alternation.all Singular.isSymbol r.alternatives = true
  /-- A rule that was made for a pattern consists of this pattern alone. -/
  synthetic : ∀ r ∈ rs.rules, r.synthetic = true → r.kind = .token ∧ r.pattern? = some r.name
  sources : ((rs.rules.filter Rule.synthetic).map Rule.pattern?).Nodup
  blank : ∀ r ∈ rs.rules, r.kind = .whitespace → r.name = rs.whitespaceName
  notBlank : ∀ r ∈ rs.rules, r.name = rs.whitespaceName → r.kind ≠ .production
  filled : ∀ r ∈ rs.rules, r.alternatives ≠ [] ∧ Alternation.isFilled r.alternatives = true
  /-- Tagging goes through, with one variant for each alternative and no tag twice in a rule. -/
  tagged : ∃ table, VariantTable.ofRules rs = .ok table ∧
    table.nodeTypes = rs.productions.map NodeType.ofRule ∧
    ∀ t ∈ table.nodeTypes, (t.variants.map Variant.tag).Nodup

namespace Source

theorem Alternation.isWorded_iff {alternatives : Alternation} :
    Alternation.isWorded alternatives = true ↔
      ∀ a ∈ alternatives, Alternative.isWorded a = true := by
  induction alternatives with
  | nil => simp [Alternation.isWorded]
  | cons a rest ih => simp only [Alternation.isWorded, Bool.and_eq_true, ih, List.forall_mem_cons]

/-- An alternation that is not empty is compiled to one that is not. -/
theorem Alternation.isEmpty_compiled {owner : Text} {kind : RuleKind} {alternatives : Alternation}
    {others : GrammarKit.Alternation}
    (h : Alternation.compiled owner kind alternatives = .ok others) :
    others.isEmpty = alternatives.isEmpty := by
  cases alternatives with
  | nil =>
    cases h
    rfl
  | cons a rest =>
    simp only [Alternation.compiled] at h
    obtain ⟨first, -, h⟩ := exists_of_bind_eq_ok h
    obtain ⟨others, -, h⟩ := exists_of_bind_eq_ok h
    cases h
    rfl

theorem Body.isEmpty_compiled {owner : Text} {kind : RuleKind} {items : Body}
    {others : GrammarKit.Body} (h : Body.compiled owner kind items = .ok others) :
    others.isEmpty = items.isEmpty := by
  cases items with
  | nil =>
    cases h
    rfl
  | cons i rest =>
    simp only [Body.compiled] at h
    obtain ⟨first, -, h⟩ := exists_of_bind_eq_ok h
    obtain ⟨others, -, h⟩ := exists_of_bind_eq_ok h
    cases h
    rfl

/-- A pattern is not empty, wherever it is put. -/
theorem isFilled_placed {kind : RuleKind} {text : Text} {span : Span} {x : GrammarKit.Singular}
    (h : x.isFilled = true) : (GrammarKit.Singular.placed kind text span x).isFilled = true := by
  unfold GrammarKit.Singular.placed
  split
  · rfl
  · exact h

mutual

theorem Singular.isFilled_compiled (owner : Text) (kind : RuleKind) : ∀ (x : Singular)
    {y : GrammarKit.Singular}, x.isWorded = true → x.compiled owner kind = .ok y →
    y.isFilled = true
  | .group alternatives span, y, hx, h => by
    simp only [Singular.isWorded, Bool.and_eq_true] at hx
    simp only [Singular.compiled] at h
    obtain ⟨others, hothers, h⟩ := exists_of_bind_eq_ok h
    cases h
    simp only [GrammarKit.Singular.isFilled, Alternation.isEmpty_compiled hothers, hx.1,
      Alternation.isFilled_compiled owner kind alternatives hx.2 hothers, Bool.and_self]
  | .symbol name span, y, hx, h => by
    cases h
    rfl
  | .literal text span, y, hx, h => by
    simp only [Singular.compiled] at h
    obtain ⟨matchers, hmatchers, h⟩ := exists_of_bind_eq_ok h
    cases h
    refine isFilled_placed ?_
    simp only [GrammarKit.Singular.isFilled, Pattern.isEmpty_of_literal hmatchers, Bool.not_false]
  | .charset text span, y, hx, h => by
    simp only [Singular.compiled] at h
    obtain ⟨matcher, -, h⟩ := exists_of_bind_eq_ok h
    cases h
    exact isFilled_placed rfl
  | .escape text span, y, hx, h => by
    simp only [Singular.compiled] at h
    obtain ⟨matcher, -, h⟩ := exists_of_bind_eq_ok h
    cases h
    exact isFilled_placed rfl

theorem Alternation.isFilled_compiled (owner : Text) (kind : RuleKind) :
    ∀ (alternatives : List (Alternative (Item Singular))) {others : GrammarKit.Alternation},
    Alternation.isWorded alternatives = true →
    Alternation.compiled owner kind alternatives = .ok others →
    GrammarKit.Alternation.isFilled others = true
  | [], others, _, h => by
    cases h
    rfl
  | a :: rest, others, hworded, h => by
    simp only [Alternation.isWorded, Bool.and_eq_true] at hworded
    simp only [Alternation.compiled] at h
    obtain ⟨first, hfirst, h⟩ := exists_of_bind_eq_ok h
    obtain ⟨others, hothers, h⟩ := exists_of_bind_eq_ok h
    cases h
    simp only [GrammarKit.Alternation.isFilled,
      Alternative.isFilled_compiled owner kind a hworded.1 hfirst,
      Alternation.isFilled_compiled owner kind rest hworded.2 hothers, Bool.and_self]

theorem Alternative.isFilled_compiled (owner : Text) (kind : RuleKind) :
    ∀ (a : Alternative (Item Singular)) {b : Alternative (GrammarKit.Item GrammarKit.Singular)},
    Alternative.isWorded a = true → Alternative.compiled owner kind a = .ok b →
    GrammarKit.Alternative.isFilled b = true
  | ⟨doc, name, items, span⟩, b, hworded, h => by
    simp only [Alternative.isWorded, Bool.and_eq_true] at hworded
    simp only [Alternative.compiled] at h
    obtain ⟨others, hothers, h⟩ := exists_of_bind_eq_ok h
    cases h
    simp only [GrammarKit.Alternative.isFilled, Body.isEmpty_compiled hothers, hworded.1,
      Body.isFilled_compiled owner kind items hworded.2 hothers, Bool.and_self]

theorem Body.isFilled_compiled (owner : Text) (kind : RuleKind) :
    ∀ (items : List (Item Singular)) {others : GrammarKit.Body}, Body.isWorded items = true →
    Body.compiled owner kind items = .ok others → GrammarKit.Body.isFilled others = true
  | [], others, _, h => by
    cases h
    rfl
  | i :: rest, others, hworded, h => by
    simp only [Body.isWorded, Bool.and_eq_true] at hworded
    simp only [Body.compiled] at h
    obtain ⟨first, hfirst, h⟩ := exists_of_bind_eq_ok h
    obtain ⟨others, hothers, h⟩ := exists_of_bind_eq_ok h
    cases h
    simp only [GrammarKit.Body.isFilled, Item.isFilled_compiled owner kind i hworded.1 hfirst,
      Body.isFilled_compiled owner kind rest hworded.2 hothers, Bool.and_self]

theorem Item.isFilled_compiled (owner : Text) (kind : RuleKind) : ∀ (i : Item Singular)
    {j : GrammarKit.Item GrammarKit.Singular}, Item.isWorded i = true →
    Item.compiled owner kind i = .ok j → GrammarKit.Item.isFilled j = true
  | ⟨inner, quantifier, span⟩, j, hworded, h => by
    simp only [Item.isWorded] at hworded
    simp only [Item.compiled] at h
    obtain ⟨x, hx, h⟩ := exists_of_bind_eq_ok h
    cases h
    simp only [GrammarKit.Item.isFilled, Singular.isFilled_compiled owner kind inner hworded hx]

end

end Source

namespace Singular.MadeOf

variable {source : Text} {x : Singular}

theorem source?_eq (h : MadeOf source x) : x.source? = some source := by
  cases h with
  | literal => rfl
  | charset => rfl
  | escape => rfl

theorem isFilled (h : MadeOf source x) : x.isFilled = true := by
  cases h with
  | literal hmatchers => simp only [Singular.isFilled, Pattern.isEmpty_of_literal hmatchers,
      Bool.not_false]
  | charset => rfl
  | escape => rfl

end Singular.MadeOf

namespace Rule

variable {whitespaceName : Text} {ds : List Source.Definition} {r : Rule}

theorem Moved.pattern?_eq (h : r.Moved ds) : r.pattern? = some r.name := by
  obtain ⟨x, span, hx, halternatives, -⟩ := h.pattern
  rw [Rule.pattern?, halternatives]
  exact hx.source?_eq

theorem Moved.isFilled (h : r.Moved ds) :
    r.alternatives ≠ [] ∧ Alternation.isFilled r.alternatives = true := by
  obtain ⟨x, span, hx, halternatives, -⟩ := h.pattern
  rw [halternatives]
  refine ⟨List.cons_ne_nil _ _, ?_⟩
  simp only [Alternation.isFilled, Alternative.isFilled, Body.isFilled, Item.isFilled, hx.isFilled]
  rfl

theorem Merged.isFilled (h : r.Merged whitespaceName ds) (hds : ∀ d ∈ ds, d.Worded) :
    r.alternatives ≠ [] ∧ Alternation.isFilled r.alternatives = true := by
  have hworded : ∀ d ∈ Source.definitionsOf r.name ds, d.Worded :=
    fun d hd => hds d (List.mem_filter.mp hd).1
  have hall : Source.Alternation.isWorded ((Source.definitionsOf r.name ds).flatMap
      Source.Definition.alternatives) = true := by
    refine Source.Alternation.isWorded_iff.mpr fun a ha => ?_
    obtain ⟨d, hd, ha⟩ := List.mem_flatMap.mp ha
    exact Source.Alternation.isWorded_iff.mp (hworded d hd).alternatives a ha
  refine ⟨?_, Source.Alternation.isFilled_compiled r.name r.kind _ hall h.alternatives⟩
  obtain ⟨d, hhead, -⟩ := h.first
  have hd := List.mem_of_mem_head? hhead
  obtain ⟨a, ha⟩ := List.exists_mem_of_ne_nil _ (hworded d hd).nonempty
  have hempty := Source.Alternation.isEmpty_compiled h.alternatives
  intro hnil
  rw [hnil] at hempty
  have hnone := List.isEmpty_iff.mp hempty.symm
  exact List.ne_nil_of_mem (List.mem_flatMap.mpr ⟨d, hd, ha⟩) hnone

/-- The whitespace rule is not defined as a production. -/
theorem Merged.kind_ne_production (h : r.Merged whitespaceName ds)
    (hname : r.name = whitespaceName) : r.kind ≠ .production := by
  obtain ⟨d, hhead, hkind, -⟩ := h.first
  have hd := of_decide_eq_true (List.mem_filter.mp (List.mem_of_mem_head? hhead)).2
  intro hproduction
  rw [hproduction] at hkind
  unfold Workbench.kindOf at hkind
  split at hkind
  · rw [if_pos (hd.trans hname)] at hkind
    cases hkind
  · rw [if_pos (hd.trans hname)] at hkind
    cases hkind

end Rule

theorem mapM_eq_ok_map {ε α β : Type} {f : α → Except ε β} {g : α → β} {l : List α}
    (h : ∀ a ∈ l, f a = .ok (g a)) : l.mapM f = .ok (l.map g) := by
  induction l with
  | nil => rfl
  | cons a rest ih =>
    rw [List.mapM_cons, h a List.mem_cons_self, ih fun b hb => h b (List.mem_cons_of_mem a hb)]
    rfl

/-- Where no production has a tag twice, tagging goes through, and no node type has a tag twice. -/
theorem RuleSet.exists_tagged {rs : RuleSet} (h : ∀ r ∈ rs.productions, r.tags.Nodup) :
    ∃ table, VariantTable.ofRules rs = .ok table ∧
      table.nodeTypes = rs.productions.map NodeType.ofRule ∧
      ∀ t ∈ table.nodeTypes, (t.variants.map Variant.tag).Nodup := by
  have hrun : VariantTable.ofRules rs = .ok ⟨rs.productions.map NodeType.ofRule⟩ := by
    unfold VariantTable.ofRules
    rw [mapM_eq_ok_map (g := NodeType.ofRule)]
    · rfl
    · intro r hr
      rw [Variant.tagFrom_eq_ok 0 [] (h r hr) (by simp)]
      rfl
  refine ⟨_, hrun, rfl, fun t ht => ?_⟩
  obtain ⟨r, hr, rfl⟩ := List.mem_map.mp ht
  have htags : (NodeType.ofRule r).variants.map Variant.tag = r.tags := by
    simp only [NodeType.ofRule, Rule.tags, List.map_map]
    rfl
  rw [htags]
  exact h r hr

/-- Rules that are named by their patterns have different patterns. -/
theorem RuleSet.nodup_sources {rs : RuleSet}
    (h : ∀ r ∈ rs.rules, r.synthetic = true → r.pattern? = some r.name) :
    ((rs.rules.filter Rule.synthetic).map Rule.pattern?).Nodup := by
  have hnames : (rs.rules.filter Rule.synthetic).map Rule.pattern? =
      ((rs.rules.filter Rule.synthetic).map Rule.name).map some := by
    rw [List.map_map]
    refine List.map_congr_left fun r hr => ?_
    obtain ⟨hr, hmade⟩ := List.mem_filter.mp hr
    exact h r hr hmade
  rw [hnames]
  refine List.Nodup.map (fun _ _ => Option.some.inj) ?_
  exact (List.filter_sublist.map Rule.name).nodup rs.nodup

theorem Rule.isLexical_iff {r : Rule} : r.isLexical = true ↔ r.kind ≠ .production := by
  unfold Rule.isLexical
  cases r.kind with
  | token => decide
  | whitespace => decide
  | production => decide

/-- What fits a production is a symbol. -/
theorem Singular.isSymbol_of_fits :
    Singular.Implies (Singular.fits .production) Singular.isSymbol fun _ => True := by
  intro x hx _
  cases x with
  | symbol name span => rfl
  | group alternatives => simp [Singular.fits] at hx
  | literal source matchers span => simp [Singular.fits] at hx
  | charset source matcher span => simp [Singular.fits] at hx

namespace Registry

variable {whitespaceName : Text} {ds : List Source.Definition} {reg : Registry} {rs : RuleSet}

/-- Each rule that is handed out was defined, or it was made for a pattern. -/
theorem Follows.cases_of_mem (h : reg.Follows whitespaceName ds)
    (hclose : (close.run.run reg).1 = .ok rs) {r : Rule} (hr : r ∈ rs.rules) :
    r.Merged whitespaceName ds ∨ r.Moved ds := by
  rw [h.rules_eq hclose] at hr
  exact (h.mirrors.cases_of_mem hr).imp And.right And.right

theorem Follows.moved_of_synthetic (h : reg.Follows whitespaceName ds)
    (hclose : (close.run.run reg).1 = .ok rs) {r : Rule} (hr : r ∈ rs.rules)
    (hsynthetic : r.synthetic = true) : r.Moved ds := by
  rcases h.cases_of_mem hclose hr with hmerged | hmoved
  · rw [hmerged.synthetic] at hsynthetic
    cases hsynthetic
  · exact hmoved

theorem Follows.tags_nodup (h : reg.Follows whitespaceName ds)
    (hclose : (close.run.run reg).1 = .ok rs) {r : Rule} (hr : r ∈ rs.productions) :
    r.tags.Nodup := by
  obtain ⟨hr, hkind⟩ := List.mem_filter.mp hr
  have hkind := of_decide_eq_true hkind
  rcases h.cases_of_mem hclose hr with hmerged | hmoved
  · exact hmerged.tags hkind
  · rw [hmoved.kind] at hkind
    cases hkind

/-- What a registry that follows worded definitions hands out is well formed. -/
theorem Follows.wellFormed (h : reg.Follows whitespaceName ds) (hds : ∀ d ∈ ds, d.Worded)
    (hclose : (close.run.run reg).1 = .ok rs) : rs.WellFormed := by
  obtain ⟨-, hcheck, hrs⟩ := close_eq_ok hclose
  rw [h.whitespaceName_eq] at hrs
  have hresolved : rs.Resolved := hrs ▸ resolved_ofDistinct h.plain hcheck
  constructor
  · exact rs.nodup
  · rw [hrs]
    exact increasing_ofDistinct h.numbered whitespaceName
  · intro r hr x hx
    obtain ⟨target, hget, hlexical⟩ := hresolved.target r hr x hx
    refine ⟨target, RuleSet.mem_of_get? hget, RuleSet.get?_name hget, fun hkind => ?_⟩
    exact Rule.isLexical_iff.mp (hlexical (Rule.isLexical_iff.mpr hkind))
  · intro r hr hkind
    have hfits := hresolved.fits r hr
    rw [hkind] at hfits
    exact Alternation.all_imp Singular.isSymbol_of_fits r.alternatives hfits fun _ _ => trivial
  · intro r hr hsynthetic
    have hmoved := h.moved_of_synthetic hclose hr hsynthetic
    exact ⟨hmoved.kind, hmoved.pattern?_eq⟩
  · exact RuleSet.nodup_sources fun r hr hsynthetic =>
      (h.moved_of_synthetic hclose hr hsynthetic).pattern?_eq
  · exact hresolved.blank
  · intro r hr hblank
    rcases h.cases_of_mem hclose hr with hmerged | hmoved
    · have hname : rs.whitespaceName = whitespaceName := by
        rw [hrs]
        rfl
      exact hmerged.kind_ne_production (hblank.trans hname)
    · rw [hmoved.kind]
      decide
  · intro r hr
    rcases h.cases_of_mem hclose hr with hmerged | hmoved
    · exact hmerged.isFilled hds
    · exact hmoved.isFilled
  · exact RuleSet.exists_tagged fun r hr => h.tags_nodup hclose hr

def Settled (whitespaceName : Text) (reg : Registry) : Prop :=
  reg.failure.isSome = true ∨
    ∃ ds, (∀ d ∈ ds, Source.Definition.Worded d) ∧ reg.Follows whitespaceName ds

theorem empty_settled (whitespaceName : Text) : (empty whitespaceName).Settled whitespaceName :=
  Or.inr ⟨[], nofun, empty_follows whitespaceName⟩

/-- The first failure is remembered. -/
theorem add_keepsFailure (d : Source.Definition) :
    Ensures (fun reg => reg.failure.isSome = true) (add d)
      (fun _ reg => reg.failure.isSome = true) fun _ reg => reg.failure.isSome = true := by
  refine requireOpen_ensures (Ensures.get_bind fun reg hreg => ?_) fun _ hreg _ => hreg
  split
  · exact Ensures.of_set fun _ _ => hreg
  · next failure w hrun =>
    intro _ _
    show (reg.failure.or failure.grammar?).isSome = true
    rw [Option.isSome_or, hreg, Bool.true_or]

/-- Whatever a text does to a registry leaves it settled. -/
theorem addText_settles (whitespaceName text : Text) :
    Ensures (Settled whitespaceName) (addText text) (fun _ reg => reg.Settled whitespaceName)
      fun _ reg => reg.Settled whitespaceName := by
  refine requireOpen_ensures ?_ fun _ hreg _ => hreg
  split
  · exact Ensures.of_throw fun _ hreg => hreg
  · next definitions hread =>
    have hdefinitions := Source.worded_of_read hread
    intro reg hreg
    rcases hreg with hfailure | ⟨ds, hds, hfollows⟩
    · exact (Ensures.forM add_keepsFailure definitions).imp (fun _ h => h) (fun _ _ h => Or.inl h)
        (fun _ _ h => Or.inl h) reg hfailure
    · refine (forM_add_follows definitions hdefinitions ds).imp (fun _ h => h)
        (fun _ reg' hreg' => Or.inr ⟨ds ++ definitions, ?_, hreg'⟩) (fun _ _ h => Or.inl h)
        reg hfollows
      intro d hd
      rcases List.mem_append.mp hd with hd | hd
      · exact hds d hd
      · exact hdefinitions d hd

theorem Settled.wellFormed (h : reg.Settled whitespaceName)
    (hclose : (close.run.run reg).1 = .ok rs) :
    rs.WellFormed ∧ rs.whitespaceName = whitespaceName := by
  obtain ⟨hnone, -, hrs⟩ := close_eq_ok hclose
  rcases h with hfailure | ⟨ds, hds, hfollows⟩
  · rw [hnone] at hfailure
    cases hfailure
  · refine ⟨hfollows.wellFormed hds hclose, ?_⟩
    rw [hrs, ← hfollows.whitespaceName_eq]
    rfl

def ofTexts (whitespaceName : Text) (texts : List Text) : Registry :=
  texts.foldl (fun reg text => ((addText text).run.run reg).2) (empty whitespaceName)

theorem foldl_addText_settled (texts : List Text) :
    ∀ reg : Registry, reg.Settled whitespaceName →
      (texts.foldl (fun reg text => ((addText text).run.run reg).2) reg).Settled
        whitespaceName := by
  induction texts with
  | nil => exact fun _ hreg => hreg
  | cons text rest ih =>
    intro reg hreg
    exact ih _ ((addText_settles whitespaceName text).state hreg)

/-- After any texts, rules that are handed out are well formed. -/
theorem ofTexts_wellFormed {texts : List Text}
    (h : (close.run.run (ofTexts whitespaceName texts)).1 = .ok rs) :
    rs.WellFormed ∧ rs.whitespaceName = whitespaceName :=
  (foldl_addText_settled texts _ (empty_settled whitespaceName)).wellFormed h

def pieces : List Text :=
  ["a ::= ('x' b)+;", "b ::=", "b :== [0-9]; a ::= 'y' 'x' -> why; _ :== ' ';"].map Text.ofString

/-- The piece that cannot be read leaves no trace, and the two definitions of one name are tagged
together. -/
theorem ofTexts_wellFormed_pieces :
    ∃ rs, (close.run.run (ofTexts defaultWhitespaceName pieces)).1 = .ok rs ∧
      rs.names = ["a", "'x'", "b", "'y'", "_"].map Text.ofString ∧
      rs.WellFormed ∧ rs.whitespaceName = defaultWhitespaceName := by
  have htest : (close.run.run (ofTexts defaultWhitespaceName pieces)).1.toOption.any (fun rs =>
      decide (rs.names = ["a", "'x'", "b", "'y'", "_"].map Text.ofString)) = true := by
    decide +kernel
  obtain ⟨rs, hclose, hnames⟩ := exists_of_toOption_any htest
  exact ⟨rs, hclose, of_decide_eq_true hnames, ofTexts_wellFormed hclose⟩

end Registry

/-- The rules of a source are well formed. -/
theorem Grammar.readRules_wellFormed {source whitespaceName : Text} {rs : RuleSet}
    (h : readRules source whitespaceName = .ok rs) : rs.WellFormed := by
  have hsettled := (Registry.addText_settles whitespaceName source).state
    (Registry.empty_settled whitespaceName)
  unfold readRules at h
  simp only [Ensures.run_bind] at h
  generalize (Registry.addText source).run.run (Registry.empty whitespaceName) = result
    at h hsettled
  obtain ⟨failure | answer, reg⟩ := result
  · cases h
  · exact (hsettled.wellFormed h).1

end GrammarKit
