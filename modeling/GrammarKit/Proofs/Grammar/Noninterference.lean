import GrammarKit.Grammar.Run
import GrammarKit.Proofs.Parse.Locality
import GrammarKit.Proofs.Rule.Insertion

/-!
Tokens that no production leads to do not interfere. Definitions of such tokens move the indices of
all rules behind them, and they may use the tokens of the grammar, but the grammar does not use them.
Main statement: with them inserted into its source, a grammar has the same real tokens in the same
order, and every input is tokenized and parsed with the same result.
-/
namespace GrammarKit

theorem RuleSet.Resolved.whitespace_iff {rs : RuleSet} (hrs : rs.Resolved) {r : Rule} :
    rs.whitespace = some r ↔ r ∈ rs.rules ∧ r.kind = .whitespace := by
  refine ⟨RuleSet.whitespace_eq_some, fun h => ?_⟩
  have hget := RuleSet.get?_of_mem h.1
  rw [hrs.blank r h.1 h.2] at hget
  exact Option.filter_eq_some_iff.mpr ⟨hget, decide_eq_true h.2⟩

namespace Tokenizer

variable {spare : List Text} {rs rs' : RuleSet}

def takesPart (rs : RuleSet) (r : Rule) : Bool :=
  Vocabulary.takesReal rs r || decide (r.kind = .whitespace)

/-- The candidates are tried in the order of the rules. -/
theorem candidateRules_eq {g : Grammar} (h : g.Compiled)
    (hincreasing : g.rules.rules.Pairwise fun a b => a.index < b.index) :
    candidateRules g.rules g.vocabulary = g.rules.rules.filter (takesPart g.rules) := by
  have hsorted := h.candidateRules_increasing hincreasing
  have hfiltered := hincreasing.filter (takesPart g.rules)
  have hmem : ∀ r, r ∈ candidateRules g.rules g.vocabulary ↔
      r ∈ g.rules.rules.filter (takesPart g.rules) := by
    intro r
    rw [mem_candidateRules, Vocabulary.real_eq h.vocabulary, h.rules.resolved.whitespace_iff,
      List.mem_filter, List.mem_filter, takesPart, Bool.or_eq_true, decide_eq_true_eq, and_or_left]
  have hnodup : ∀ {l : List Rule}, l.Pairwise (fun a b => a.index < b.index) → l.Nodup := by
    intro l hl
    refine hl.imp fun {a b} hlt heq => ?_
    rw [heq] at hlt
    exact Int.lt_irrefl _ hlt
  -- Both rows increase strictly and have the same members, so they are the same row.
  have hperm := (List.perm_ext_iff_of_nodup (hnodup hsorted) (hnodup hfiltered)).mpr hmem
  refine hperm.eq_of_pairwise (fun a b _ _ hab hba => ?_) hsorted hfiltered
  exact absurd hab (by omega)

theorem takesPart_content (h : rs.Within spare rs') (hrs : rs.Resolved) :
    (rs'.rules.filter (takesPart rs')).map Rule.content =
      (rs.rules.filter (takesPart rs)).map Rule.content := by
  refine h.filter_content (fun r _ r' _ hsame => ?_) fun r' hr' hspare => ?_
  · rw [takesPart, takesPart, Vocabulary.takesReal_eq h hrs hsame,
      (Rule.content_eq_iff.mp hsame).2.1]
  · rw [takesPart, Vocabulary.takesReal_spare h hrs hr' hspare, (h.token r' hr' hspare).1]
    rfl

/-- Rules that say the same are served by the same candidate. -/
theorem Serves.eq (h : rs.Within spare rs') (hrs : rs.Sound) {r r' : Rule} {c c' : Candidate}
    (hc : Serves rs r c) (hc' : Serves rs' r' c') (hr : r ∈ rs.rules)
    (hlexical : r.isLexical = true) (hsame : r'.content = r.content) : c' = c := by
  have hname := (Rule.content_eq_iff.mp hsame).1
  have hautomaton := hc'.automaton
  rw [hname, Automaton.ofRule_within h hrs hr hlexical, hc.automaton, Except.ok.injEq] at hautomaton
  have hignored : c'.ignored = c.ignored := by
    rw [Bool.eq_iff_iff, hc'.ignored, hc.ignored, h.whitespace_name, hname]
  have hnames : c'.name = c.name := by rw [hc'.name, hc.name, hname]
  cases c
  cases c'
  simp only [Candidate.mk.injEq]
  exact ⟨hnames, hautomaton.symm, hignored⟩

theorem candidates_eq (h : rs.Within spare rs') (hrs : rs.Sound) {l : List Rule}
    {cs : List Candidate} (hserves : List.Forall₂ (Serves rs) l cs)
    (hl : ∀ r ∈ l, r ∈ rs.rules ∧ r.isLexical = true) :
    ∀ {l' : List Rule} {cs' : List Candidate}, List.Forall₂ (Serves rs') l' cs' →
      l'.map Rule.content = l.map Rule.content → cs' = cs := by
  induction hserves with
  | nil =>
    intro l' cs' hserves' hsame
    rw [List.map_nil, List.map_eq_nil_iff] at hsame
    subst hsame
    cases hserves'
    rfl
  | @cons r c l cs hc _ ih =>
    intro l' cs' hserves' hsame
    obtain ⟨r', rest', rfl, hfirst, hrest⟩ := List.map_eq_cons_iff.mp hsame
    obtain ⟨c', others', hc', hothers', rfl⟩ := List.forall₂_cons_left_iff.mp hserves'
    rw [List.forall_mem_cons] at hl
    rw [hc.eq h hrs hc' hl.1.1 hl.1.2 hfirst, ih hl.2 hothers' hrest]

end Tokenizer

namespace Grammar

/-- Two grammars that no input tells apart. -/
structure Indistinguishable (g g' : Grammar) : Prop where
  /-- The real tokens are the same and in the same order. -/
  real : g'.vocabulary.real.map Rule.content = g.vocabulary.real.map Rule.content
  tokenize : ∀ input, g'.tokenizer.tokenize input = g.tokenizer.tokenize input
  /-- The answer is the same, and so are the events on the way to it. -/
  parse : ∀ limit start input allowTrailing,
    g'.parser.parse limit start input allowTrailing = g.parser.parse limit start input allowTrailing
  parseText : ∀ palette start input allowTrailing,
    g'.parseText palette start input allowTrailing = g.parseText palette start input allowTrailing

section Stages

variable {spare : List Text} {g g' : Grammar}

/-- Each stage of a grammar does the same, if the rules of one are within those of the other. -/
theorem indistinguishable_of_within (hwithin : g.rules.Within spare g'.rules) (h : g.Compiled)
    (h' : g'.Compiled) (hvariants : g'.variants = g.variants)
    (htokenizer : g'.tokenizer = g.tokenizer) : g.Indistinguishable g' := by
  have hparse : ∀ limit start input allowTrailing, g'.parser.parse limit start input allowTrailing =
      g.parser.parse limit start input allowTrailing := by
    have hrules : g.parser.rules.Within spare g'.parser.rules := by
      rw [h.parserRules, h'.parserRules]
      exact hwithin
    have hsound : g.parser.rules.Sound := h.parserRules.symm ▸ h.rules
    have htable : g'.parser.variants = g.parser.variants := by
      rw [h'.parserVariants, hvariants, h.parserVariants]
    exact Parser.parse_within hrules hsound htable
  exact {
    real := Vocabulary.real_content hwithin h.rules.resolved h.vocabulary h'.vocabulary
    tokenize := fun input => by rw [htokenizer]
    parse := hparse
    parseText := fun palette start input allowTrailing => by
      simp only [Grammar.parseText, Parser.run, htokenizer, hparse] }

variable {source source' whitespaceName : Text}

theorem variants_eq (hcompile : compile source whitespaceName = .ok g) :
    g.variants = ⟨g.rules.productions.map NodeType.ofRule⟩ := by
  obtain ⟨table, htable, hnodeTypes, -⟩ :=
    (readRules_wellFormed (readRules_of_compile hcompile).1).tagged
  rw [(compiled_of_compile hcompile).variants, Except.ok.injEq] at htable
  rw [htable, ← hnodeTypes]

theorem tokenizer_within (hcompile : compile source whitespaceName = .ok g)
    (hcompile' : compile source' whitespaceName = .ok g')
    (hwithin : g.rules.Within spare g'.rules) : g'.tokenizer = g.tokenizer := by
  have h := compiled_of_compile hcompile
  have h' := compiled_of_compile hcompile'
  obtain ⟨hread, halphabet⟩ := readRules_of_compile hcompile
  obtain ⟨hread', halphabet'⟩ := readRules_of_compile hcompile'
  have hcandidates : g'.tokenizer.candidates = g.tokenizer.candidates := by
    refine Tokenizer.candidates_eq hwithin h.rules h.candidates
      (fun r => Tokenizer.lexical_of_mem_candidateRules h.vocabulary) h'.candidates ?_
    rw [Tokenizer.candidateRules_eq h (readRules_increasing hread),
      Tokenizer.candidateRules_eq h' (readRules_increasing hread')]
    exact Tokenizer.takesPart_content hwithin h.rules.resolved
  have hnames : g'.vocabulary.real.map Rule.name = g.vocabulary.real.map Rule.name := by
    have hreal := congrArg (List.map Rule.name)
      (Vocabulary.real_content hwithin h.rules.resolved h.vocabulary h'.vocabulary)
    rw [List.map_map, List.map_map] at hreal
    exact hreal
  cases htk : g.tokenizer
  cases htk' : g'.tokenizer
  rw [htk] at hcandidates halphabet
  rw [htk'] at hcandidates halphabet'
  simp only [Tokenizer.mk.injEq]
  exact ⟨hcandidates, halphabet'.trans (hnames.trans halphabet.symm)⟩

/-- Definitions of tokens under new names can be inserted between the rules of a source, and no
input tells the two grammars apart. The source has no reference to a new name, or it would not
compile. -/
theorem inserted_tokens_unobservable (hcompile : compile source whitespaceName = .ok g)
    (hcompile' : compile source' whitespaceName = .ok g')
    {extra ds ds' : List Source.Definition} (hread : Source.read source = .ok ds)
    (hread' : Source.read source' = .ok ds') (hinserted : Source.Inserted extra ds ds')
    (hextra : ∀ d ∈ extra, d.kind = .token ∧ d.name ≠ whitespaceName ∧
      ∀ other ∈ ds, other.name ≠ d.name) :
    g.Indistinguishable g' := by
  have hwithin := within_of_inserted hread hread' hinserted hextra
    (readRules_of_compile hcompile).1 (readRules_of_compile hcompile').1
  have hvariants : g'.variants = g.variants := by
    rw [variants_eq hcompile, variants_eq hcompile', hwithin.nodeTypes_eq]
  exact indistinguishable_of_within hwithin (compiled_of_compile hcompile)
    (compiled_of_compile hcompile') hvariants (tokenizer_within hcompile hcompile' hwithin)

end Stages

def pairRule : Text := Text.ofString "pair ::= 'x' num;"

/-- Tokens that match what the tokens of pairs match, and use one of them. -/
def strayTokens : Text := Text.ofString "some :== 'x' | num+; all :== some some;"

def numRule : Text := Text.ofString "num :== [0-9]; _ :== ' ';"

/-- The stray tokens stand before a token that they use, and they match where this one does. -/
theorem inserted_tokens_unobservable_pairs :
    ∃ g g', compile (pairRule ++ numRule) Registry.defaultWhitespaceName = .ok g ∧
      compile (pairRule ++ (strayTokens ++ numRule)) Registry.defaultWhitespaceName = .ok g' ∧
      g'.rules.names = ["pair", "'x'", "some", "all", "num", "_"].map Text.ofString ∧
      g.Indistinguishable g' := by
  have hcompile : (compile (pairRule ++ numRule) Registry.defaultWhitespaceName).toOption.any
      (fun _ => true) = true := by
    decide +kernel
  have hcompile' : (compile (pairRule ++ (strayTokens ++ numRule))
      Registry.defaultWhitespaceName).toOption.any (fun g' => decide (g'.rules.names =
        ["pair", "'x'", "some", "all", "num", "_"].map Text.ofString)) = true := by
    decide +kernel
  obtain ⟨g, hg, -⟩ := exists_compile hcompile
  obtain ⟨g', hg', hnames⟩ := exists_compile hcompile'
  have hpair : (Source.read pairRule).toOption.any (fun ds =>
      decide (ds.map Source.Definition.name = ["pair"].map Text.ofString)) = true := by
    decide +kernel
  have hstray : (Source.read strayTokens).toOption.any (fun es => es.all fun d =>
      decide (d.kind = .token ∧ d.name ∉ ["pair", "num", "_"].map Text.ofString)) = true := by
    decide +kernel
  have hnum : (Source.read numRule).toOption.any (fun ds =>
      decide (ds.map Source.Definition.name = ["num", "_"].map Text.ofString)) = true := by
    decide +kernel
  obtain ⟨ds, hds, hpair⟩ := exists_of_toOption_any hpair
  obtain ⟨es, hes, hstray⟩ := exists_of_toOption_any hstray
  obtain ⟨others, hothers, hnum⟩ := exists_of_toOption_any hnum
  obtain ⟨ds', hread, hread', hinserted⟩ := Source.inserted_between hds
    (Source.last_ne_doc (by decide +kernel)) hes (Source.last_ne_doc (by decide +kernel)) hothers
  refine ⟨g, g', hg, hg', of_decide_eq_true hnames,
    inserted_tokens_unobservable hg hg' hread hread' hinserted fun d hd => ?_⟩
  have hdefined : (ds ++ others.map (·.shift pairRule.length)).map Source.Definition.name =
      ["pair", "num", "_"].map Text.ofString := by
    rw [List.map_append, of_decide_eq_true hpair, List.map_map]
    exact congrArg _ (of_decide_eq_true hnum)
  obtain ⟨e, he, rfl⟩ := List.mem_map.mp hd
  obtain ⟨hkind, hnew⟩ := of_decide_eq_true (List.all_eq_true.mp hstray e he)
  refine ⟨hkind, fun heq => hnew (heq ▸ by decide +kernel), fun other hother heq => ?_⟩
  rw [← hdefined] at hnew
  exact hnew (heq ▸ List.mem_map_of_mem hother)

end Grammar

end GrammarKit
