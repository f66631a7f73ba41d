import GrammarKit.Proofs.Rule.Acyclic
import Mathlib.Data.List.Forall2

/-!
What a compiled grammar is made of. Its rules are resolved and have no cycle of token rules, every
rule that the tokenizer takes part with has its automaton there under a name of its own, and the
parser has the same rules. Compiling a source comes to such a grammar or to a mistake in the source.
-/
namespace GrammarKit

/-- Rules that every later stage can rely on. -/
structure RuleSet.Sound (rs : RuleSet) : Prop where
  resolved : rs.Resolved
  acyclic : Vocabulary.cycle? rs = none

def RuleSet.knows (rs : RuleSet) : Singular → Bool
  | .symbol name _ => rs.contains name
  | _ => false

namespace RuleSet.Sound

variable {rs : RuleSet}

theorem filled (h : rs.Sound) : rs.LiteralsFilled := by
  intro r hr
  have himp : Singular.Implies (Singular.fits r.kind) Singular.hasMatchers (fun _ => True) :=
    fun x hx _ => Singular.hasMatchers_of_fits hx
  exact Alternation.all_imp himp r.alternatives (h.resolved.fits r hr) fun _ _ => trivial

/-- Productions consist of symbols, and each of these names a rule. -/
theorem knows (h : rs.Sound) {r : Rule} (hr : r ∈ rs.rules) (hkind : r.kind = .production) :
    Alternation.all rs.knows r.alternatives = true := by
  have hfits := h.resolved.fits r hr
  rw [hkind] at hfits
  have himp : Singular.Implies (Singular.fits .production) rs.knows
      (fun x => rs.contains x.name = true) := by
    intro x hx hknown
    cases x with
    | symbol name span => exact hknown ⟨name, span⟩ (by simp [Singular.references])
    | group alternatives => simp [Singular.fits] at hx
    | literal source matchers span => simp [Singular.fits] at hx
    | charset source matcher span => simp [Singular.fits] at hx
  refine Alternation.all_imp himp r.alternatives hfits fun x hx => ?_
  obtain ⟨target, hget, -⟩ := h.resolved.target r hr x hx
  simp [RuleSet.contains, hget]

/-- A name that is not that of a production has an automaton. -/
theorem automaton (h : rs.Sound) {name : Text} (hknown : rs.contains name = true)
    (hproduction : rs.isProduction name = false) : ∃ a, Automaton.ofRule rs name = .ok a := by
  obtain ⟨r, hget⟩ := Option.isSome_iff_exists.mp hknown
  have hlexical : r.isLexical = true := by
    simp only [RuleSet.isProduction, hget, Option.any_some, decide_eq_false_iff_not] at hproduction
    cases hkind : r.kind with
    | token => simp [Rule.isLexical, hkind, RuleKind.isLexical]
    | whitespace => simp [Rule.isLexical, hkind, RuleKind.isLexical]
    | production => exact absurd hkind hproduction
  have hname := RuleSet.get?_name hget
  exact hname ▸ Automaton.exists_ofRule h.resolved h.acyclic (RuleSet.mem_of_get? hget) hlexical

end RuleSet.Sound

theorem RuleSet.isProduction_iff {rs : RuleSet} {name : Text} :
    rs.isProduction name = true ↔ ∃ r, rs.get? name = some r ∧ r.kind = .production := by
  simp only [isProduction, Option.any_eq_true, decide_eq_true_eq]

theorem RuleSet.whitespace_eq_some {rs : RuleSet} {r : Rule} (h : rs.whitespace = some r) :
    r ∈ rs.rules ∧ r.kind = .whitespace := by
  obtain ⟨hget, hkind⟩ := Option.filter_eq_some_iff.mp h
  exact ⟨RuleSet.mem_of_get? hget, by simpa using hkind⟩

namespace NameTable

variable {α : Type}

theorem foldlM_push (rest : List (Text × α)) :
    ∀ m : NameTable α, ((m.entries ++ rest).map Prod.fst).Nodup →
      ∃ m', rest.foldlM (fun m (key, value) => m.push key value) m = .ok m' ∧
        m'.entries = m.entries ++ rest := by
  induction rest with
  | nil => exact fun m _ => ⟨m, rfl, (List.append_nil _).symm⟩
  | cons e rest ih =>
    intro m hnodup
    obtain ⟨key, value⟩ := e
    have hsplit : m.entries ++ (key, value) :: rest = (m.entries ++ [(key, value)]) ++ rest := by
      simp
    have hnew : key ∉ m.keys := by
      rw [List.map_append, List.map_cons, List.nodup_append] at hnodup
      intro hmem
      exact hnodup.2.2 key hmem key List.mem_cons_self rfl
    obtain ⟨m', hfold, hentries⟩ := ih (m.append key value hnew) (hsplit ▸ hnodup)
    refine ⟨m', ?_, ?_⟩
    · rw [List.foldlM_cons]
      show (m.push key value >>= fun m => _) = _
      rw [push_of_notMem m value hnew]
      exact hfold
    · rw [hentries, hsplit]
      rfl

theorem ofList_of_nodup {pairs : List (Text × α)} (h : (pairs.map Prod.fst).Nodup) :
    ∃ m, ofList pairs = .ok m ∧ m.entries = pairs := by
  obtain ⟨m, hfold, hentries⟩ := foldlM_push pairs empty (by simpa [empty] using h)
  exact ⟨m, hfold, by simpa [empty] using hentries⟩

end NameTable

section Rows

variable {ε α β γ : Type} {f : α → Except ε β}

theorem exists_mapM_ok {l : List α} (h : ∀ a ∈ l, ∃ b, f a = .ok b) : ∃ bs, l.mapM f = .ok bs := by
  induction l with
  | nil => exact ⟨[], rfl⟩
  | cons a rest ih =>
    obtain ⟨b, hb⟩ := h a List.mem_cons_self
    obtain ⟨bs, hbs⟩ := ih fun a ha => h a (List.mem_cons_of_mem _ ha)
    refine ⟨b :: bs, ?_⟩
    rw [List.mapM_cons, hb, hbs]
    rfl

theorem forall₂_of_mapM {l : List α} :
    ∀ {bs : List β}, l.mapM f = .ok bs → List.Forall₂ (fun a b => f a = .ok b) l bs := by
  induction l with
  | nil =>
    intro bs h
    cases h
    exact .nil
  | cons a rest ih =>
    intro bs h
    rw [List.mapM_cons] at h
    obtain ⟨b, hfirst, h⟩ := exists_of_bind_eq_ok h
    obtain ⟨others, hrest, h⟩ := exists_of_bind_eq_ok h
    cases h
    exact .cons hfirst (ih hrest)

theorem map_eq_of_forall₂ {R : α → β → Prop} {p : α → γ} {q : β → γ}
    (hpq : ∀ a b, R a b → q b = p a) {l : List α} {bs : List β} (h : List.Forall₂ R l bs) :
    bs.map q = l.map p := by
  induction h with
  | nil => rfl
  | cons hab _ ih => rw [List.map_cons, List.map_cons, hpq _ _ hab, ih]

theorem exists_right_of_forall₂ {R : α → β → Prop} {l : List α} {bs : List β}
    (h : List.Forall₂ R l bs) {a : α} (ha : a ∈ l) : ∃ b ∈ bs, R a b := by
  induction h with
  | nil => cases ha
  | @cons first b rest bs hfirst _ ih =>
    rcases List.mem_cons.mp ha with rfl | ha
    · exact ⟨b, List.mem_cons_self, hfirst⟩
    · obtain ⟨b', hb', hrelated⟩ := ih ha
      exact ⟨b', List.mem_cons_of_mem _ hb', hrelated⟩

/-- Where the right side splits around a member, the left side does. -/
theorem exists_split_of_forall₂ {R : α → β → Prop} {b : β} {after : List β} {before : List β} :
    ∀ {l : List α}, List.Forall₂ R l (before ++ b :: after) →
      ∃ first a rest, l = first ++ a :: rest ∧ List.Forall₂ R first before ∧ R a b ∧
        List.Forall₂ R rest after := by
  induction before with
  | nil =>
    intro l h
    obtain ⟨a, rest, hab, hrest, rfl⟩ := List.forall₂_cons_right_iff.mp h
    exact ⟨[], a, rest, rfl, .nil, hab, hrest⟩
  | cons b' before ih =>
    intro l h
    obtain ⟨a', l', hab', hl', rfl⟩ := List.forall₂_cons_right_iff.mp h
    obtain ⟨first, a, rest, rfl, hfirst, hab, hrest⟩ := ih hl'
    exact ⟨a' :: first, a, rest, rfl, .cons hab' hfirst, hab, hrest⟩

end Rows

namespace Tokenizer

structure Serves (rs : RuleSet) (r : Rule) (c : Candidate) : Prop where
  name : c.name = r.name
  automaton : Automaton.ofRule rs r.name = .ok c.automaton
  ignored : c.ignored = true ↔ rs.whitespace.map Rule.name = some r.name

theorem mem_candidateRules {rs : RuleSet} {v : Vocabulary} {r : Rule} :
    r ∈ candidateRules rs v ↔ r ∈ v.real ∨ rs.whitespace = some r := by
  unfold candidateRules
  rw [(RuleSet.perm_inOrder _).mem_iff, List.mem_append, Option.mem_toList]

theorem mem_real {rs : RuleSet} {v : Vocabulary} (hv : Vocabulary.ofRules rs = .ok v) {r : Rule} :
    r ∈ v.real ↔ r ∈ rs.rules ∧ r.kind = .token ∧
      (r.synthetic = true ∨ r.name ∈ Vocabulary.reached rs) := by
  unfold Vocabulary.ofRules at hv
  split at hv
  · cases hv
  · cases hv
    simp only [RuleSet.ofKind, List.mem_filter, decide_eq_true_eq, Bool.or_eq_true]
    exact and_assoc

theorem lexical_of_mem_candidateRules {rs : RuleSet} {v : Vocabulary}
    (hv : Vocabulary.ofRules rs = .ok v) {r : Rule} (h : r ∈ candidateRules rs v) :
    r ∈ rs.rules ∧ r.isLexical = true := by
  rcases mem_candidateRules.mp h with h | h
  · obtain ⟨hr, hkind, -⟩ := (mem_real hv).mp h
    exact ⟨hr, by simp [Rule.isLexical, hkind, RuleKind.isLexical]⟩
  · obtain ⟨hr, hkind⟩ := RuleSet.whitespace_eq_some h
    exact ⟨hr, by simp [Rule.isLexical, hkind, RuleKind.isLexical]⟩

/-- The whitespace rule is no token, so no name takes part twice. -/
theorem candidateRules_nodup {rs : RuleSet} {v : Vocabulary} (hv : Vocabulary.ofRules rs = .ok v) :
    ((candidateRules rs v).map Rule.name).Nodup := by
  have hperm := (RuleSet.perm_inOrder (v.real ++ rs.whitespace.toList)).map Rule.name
  refine hperm.nodup_iff.mpr ?_
  have hreal : (v.real.map Rule.name).Nodup := by
    unfold Vocabulary.ofRules at hv
    split at hv
    · cases hv
    · cases hv
      exact (List.filter_sublist.trans List.filter_sublist).map Rule.name |>.nodup rs.nodup
  cases hws : rs.whitespace with
  | none => simpa using hreal
  | some w =>
    obtain ⟨hw, hkind⟩ := RuleSet.whitespace_eq_some hws
    rw [Option.toList_some, List.map_append, List.nodup_append]
    refine ⟨hreal, by simp, ?_⟩
    intro name hname other hother heq
    rw [List.map_singleton, List.mem_singleton] at hother
    obtain ⟨r, hr, rfl⟩ := List.mem_map.mp hname
    obtain ⟨hmem, htoken, -⟩ := (mem_real hv).mp hr
    have hsame := RuleSet.get?_of_mem hmem
    rw [heq, hother, RuleSet.get?_of_mem hw] at hsame
    cases hsame
    rw [hkind] at htoken
    cases htoken

/-- Every rule that takes part gets its automaton, and the tokenizer is made. -/
theorem exists_ofRules {rs : RuleSet} (hrs : rs.Sound) {v : Vocabulary}
    (hv : Vocabulary.ofRules rs = .ok v) (automata : Automaton.Table rs) :
    ∃ tk, ofRules rs v automata = .ok tk ∧
      List.Forall₂ (Serves rs) (candidateRules rs v) tk.candidates := by
  have hsome : ∀ r ∈ candidateRules rs v, ∃ c, candidate rs automata r = .ok c := by
    intro r hr
    obtain ⟨hmem, hlexical⟩ := lexical_of_mem_candidateRules hv hr
    obtain ⟨a, ha⟩ := Automaton.exists_ofRule hrs.resolved hrs.acyclic hmem hlexical
    unfold candidate
    rw [automata.get_eq, ha]
    exact ⟨_, rfl⟩
  obtain ⟨cs, hrun⟩ := exists_mapM_ok hsome
  have hserves : List.Forall₂ (Serves rs) (candidateRules rs v) cs := by
    refine (forall₂_of_mapM hrun).imp fun r c hc => ?_
    unfold candidate at hc
    rw [automata.get_eq] at hc
    obtain ⟨a, ha, hc⟩ := exists_of_bind_eq_ok hc
    cases hc
    exact ⟨rfl, ha, by simp⟩
  have hnodup : ((cs.map fun c => (c.name, c)).map Prod.fst).Nodup := by
    have h : (cs.map fun c => (c.name, c)).map Prod.fst = cs.map Candidate.name := by
      simp [Function.comp_def]
    rw [h, map_eq_of_forall₂ (fun _ _ hc => hc.name) hserves]
    exact candidateRules_nodup hv
  obtain ⟨m, hm, hentries⟩ := NameTable.ofList_of_nodup hnodup
  have hvalues : m.values = cs := by
    simp [NameTable.values, hentries, Function.comp_def]
  refine ⟨⟨m.values, v.real.map Rule.name⟩, ?_, hvalues.symm ▸ hserves⟩
  unfold ofRules
  rw [hrun]
  show (NameTable.ofList (cs.map fun c => (c.name, c)) >>= fun table => _) = _
  rw [hm]
  rfl

end Tokenizer

/-- The table has one node type for each production. -/
theorem VariantTable.rule_nodeTypes {rs : RuleSet} {table : VariantTable}
    (h : ofRules rs = .ok table) :
    table.nodeTypes.map NodeType.rule = rs.productions.map Rule.name := by
  unfold ofRules at h
  obtain ⟨types, hrun, h⟩ := exists_of_bind_eq_ok h
  cases h
  refine map_eq_of_forall₂ (fun rule type htype => ?_) (forall₂_of_mapM hrun)
  obtain ⟨variants, -, htype⟩ := exists_of_bind_eq_ok htype
  cases htype
  rfl

namespace Grammar

/-- What the stages of a compilation have made. -/
structure Compiled (g : Grammar) : Prop where
  rules : g.rules.Sound
  vocabulary : Vocabulary.ofRules g.rules = .ok g.vocabulary
  variants : VariantTable.ofRules g.rules = .ok g.variants
  candidates : List.Forall₂ (Tokenizer.Serves g.rules)
    (Tokenizer.candidateRules g.rules g.vocabulary) g.tokenizer.candidates
  parserRules : g.parser.rules = g.rules
  parserVariants : g.parser.variants = g.variants

theorem ofRules_cases {rs : RuleSet} (hrs : rs.Resolved) :
    (∃ g, ofRules rs = .ok g ∧ g.Compiled) ∨ ∃ e, ofRules rs = .error (.grammar e) := by
  unfold ofRules
  cases hvocabulary : Vocabulary.ofRules rs with
  | error e => exact Or.inr ⟨e, rfl⟩
  | ok v =>
    have hacyclic : Vocabulary.cycle? rs = none := by
      unfold Vocabulary.ofRules at hvocabulary
      split at hvocabulary
      · cases hvocabulary
      · assumption
    cases hvariants : VariantTable.ofRules rs with
    | error e => exact Or.inr ⟨e, rfl⟩
    | ok variants =>
      let automata : Automaton.Table rs :=
        .ofNames rs ((v.real ++ rs.whitespace.toList).map Rule.name)
      obtain ⟨tk, htokenizer, hcandidates⟩ :=
        Tokenizer.exists_ofRules ⟨hrs, hacyclic⟩ hvocabulary automata
      have hassemble : assemble rs v variants =
          .ok ⟨rs, v, variants, tk, rs, variants, automata⟩ := by
        show (Tokenizer.ofRules rs v automata >>= fun tokenizer => _) = _
        rw [htokenizer]
        rfl
      refine Or.inl ⟨_, congrArg (Except.mapError Failure.fault) hassemble, ?_⟩
      exact ⟨⟨hrs, hacyclic⟩, hvocabulary, hvariants, hcandidates, rfl, rfl⟩

/-- A source gives a grammar with all that its stages rely on, or it has a mistake. -/
theorem compile_cases (source whitespaceName : Text) :
    (∃ g, compile source whitespaceName = .ok g ∧ g.Compiled) ∨
      ∃ e, compile source whitespaceName = .error (.grammar e) := by
  unfold compile
  rcases readRules_cases source whitespaceName with ⟨rs, hread, hrs⟩ | ⟨e, hread⟩
  · rw [hread]
    rcases ofRules_cases hrs with ⟨g, hg, hcompiled⟩ | ⟨e, he⟩
    · exact Or.inl ⟨g, congrArg (Except.mapError (locateFailure source)) hg, hcompiled⟩
    · exact Or.inr ⟨_, congrArg (Except.mapError (locateFailure source)) he⟩
  · rw [hread]
    exact Or.inr ⟨_, rfl⟩

theorem compiled_of_compile {source whitespaceName : Text} {g : Grammar}
    (h : compile source whitespaceName = .ok g) : g.Compiled := by
  rcases compile_cases source whitespaceName with ⟨g', hg', hcompiled⟩ | ⟨e, he⟩
  · rw [h] at hg'
    cases hg'
    exact hcompiled
  · rw [h] at he
    cases he

/-- What the stages of a compilation started from. -/
theorem readRules_of_compile {source whitespaceName : Text} {g : Grammar}
    (h : compile source whitespaceName = .ok g) : readRules source whitespaceName = .ok g.rules ∧
      g.tokenizer.alphabet = g.vocabulary.real.map Rule.name := by
  obtain ⟨rs, hread, hrules⟩ := exists_of_bind_eq_ok (eq_ok_of_mapError h)
  obtain ⟨v, hv, hrules⟩ := exists_of_bind_eq_ok hrules
  obtain ⟨variants, hvariants, hrules⟩ := exists_of_bind_eq_ok hrules
  obtain ⟨tk, htk, hassemble⟩ := exists_of_bind_eq_ok (eq_ok_of_mapError hrules)
  obtain ⟨candidates, hcandidates, htk⟩ := exists_of_bind_eq_ok htk
  obtain ⟨table, htable, htk⟩ := exists_of_bind_eq_ok htk
  cases htk
  cases hassemble
  exact ⟨hread, rfl⟩

/-- A grammar of which a test holds, found by compiling its source. -/
theorem exists_compile {source whitespaceName : Text} {test : Grammar → Bool}
    (h : (compile source whitespaceName).toOption.any test = true) :
    ∃ g, compile source whitespaceName = .ok g ∧ test g = true :=
  exists_of_toOption_any h

end Grammar

end GrammarKit
