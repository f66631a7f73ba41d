import GrammarKit.Proofs.Rule.Calls
import GrammarKit.Proofs.Rule.Embedding
import GrammarKit.Proofs.Source.Moved
import GrammarKit.Proofs.Source.Reading
import GrammarKit.Proofs.Source.Seam

/-!
Sources compose by concatenation. Where the first source ends in a rule, the second is read behind
it as it would be alone, with all spans moved. What a registry hands out depends on spans only in
its spans, so it makes no difference whether the sources are given to it one after the other or as
one.
-/
namespace GrammarKit

namespace Source

theorem Definition.Spelled.endsRule {d : Definition} {ls : List Lexeme} (h : d.Spelled ls) :
    ∃ semicolon, ls.getLast? = some semicolon ∧ semicolon.kind = .semicolon := by
  obtain ⟨-, docs, name, sign, inside, semicolon, rfl, -, -, -, -, hsemicolon⟩ := h
  refine ⟨semicolon, ?_, hsemicolon⟩
  simp [List.getLast?_append, List.getLast?_cons]

/-- Definitions end in a semicolon. -/
theorem Spelled.endsRule {ds : List Definition} {ls : List Lexeme} (h : Spelled ds ls) :
    Lexeme.EndsRule ls := by
  induction ds generalizing ls with
  | nil =>
    rw [Spelled] at h
    subst h
    intro l hl
    cases hl
  | cons d rest ih =>
    obtain ⟨first, others, rfl, hfirst, hothers⟩ := h
    obtain ⟨semicolon, hlast, hkind⟩ := hfirst.endsRule
    intro l hl
    rw [List.getLast?_append, hlast] at hl
    cases hcase : others.getLast? with
    | none =>
      rw [hcase] at hl
      cases hl
      exact hkind
    | some last =>
      rw [hcase] at hl
      cases hl
      exact ih hothers _ hcase

/-- The lexemes of a source that can be read end in a rule, unless they end in a docstring. -/
theorem spelled_of_read {t : Text} {ds : List Definition} (hread : read t = .ok ds) :
    ∃ ls, Lexeme.scan t = .ok ls ∧ ((∀ l ∈ ls.getLast?, l.kind ≠ .doc) →
      (∀ d ∈ ds, d.isProper = true) ∧ Spelled ds ls) := by
  obtain ⟨ls, hscan, hdefinitions⟩ := exists_of_bind_eq_ok hread
  refine ⟨ls, hscan, fun hlast => ?_⟩
  obtain ⟨hproper, taken, rest, rfl, htaken, hrest⟩ :=
    Reader.definitions_spelled (Nat.le_refl _) hdefinitions
  rcases hrest with rfl | ⟨doc, rfl, hdoc⟩
  · rw [List.append_nil]
    exact ⟨hproper, htaken⟩
  · exact absurd hdoc (hlast doc (by simp))

/-- Whether the last lexeme is a docstring can be tested. -/
theorem last_ne_doc {t : Text} (h : (Lexeme.scan t).toOption.any (fun ls =>
      ls.getLast?.all fun l => decide (l.kind ≠ .doc)) = true) :
    ∀ ls, Lexeme.scan t = .ok ls → ∀ l ∈ ls.getLast?, l.kind ≠ .doc := by
  intro ls hscan l hl
  rw [Option.mem_def] at hl
  rw [hscan] at h
  simp only [Except.toOption, Option.any_some, hl, Option.all_some] at h
  exact of_decide_eq_true h

/-- A source behind one that ends in a rule is read as it would be alone. -/
theorem read_append {t : Text} {ds : List Definition} (hread : read t = .ok ds)
    (hlast : ∀ ls, Lexeme.scan t = .ok ls → ∀ l ∈ ls.getLast?, l.kind ≠ .doc) (more : Text) :
    read (t ++ more) =
      (moved t.length (List.map (·.shift t.length)) (read more)).map (ds ++ ·) := by
  obtain ⟨ls, hscan, hspelled⟩ := spelled_of_read hread
  obtain ⟨hproper, hspelled⟩ := hspelled (hlast ls hscan)
  have hseam : Lexeme.scan (t ++ more) =
      (moved t.length (List.map (Lexeme.shift t.length)) (Lexeme.scan more)).map (ls ++ ·) := by
    rw [Lexeme.scan, Lexeme.scanFrom_append 0 t more hscan hspelled.endsRule,
      Lexeme.scanFrom_shift 0 t.length more]
    rfl
  rw [read, hseam, read]
  cases Lexeme.scan more with
  | error e => rfl
  | ok others =>
    show Reader.definitions (t ++ more).length (ls ++ others.map (Lexeme.shift t.length)).length
      (ls ++ others.map (Lexeme.shift t.length)) =
        (moved _ _ (Reader.definitions more.length others.length others)).map _
    rw [Reader.definitions_append hspelled hproper _ (Nat.le_refl _), List.length_map,
      List.length_append, Nat.add_comm t.length, Reader.definitions_shift]

end Source

namespace Registry

variable {whitespaceName : Text}

/-- A loop over definitions in a registry is the same loop over its drafts. -/
theorem forM_add_run (ds : List Source.Definition) {reg : Registry} (hopen : reg.closed = false) :
    (ds.forM add).run.run reg =
      match (ds.forM (Workbench.merge reg.whitespaceName)).run.run reg.workbench with
      | (.ok _, w) => (.ok (), { reg with workbench := w })
      | (.error failure, w) => (.error failure,
        { reg with workbench := w, failure := reg.failure.or failure.grammar? }) := by
  induction ds generalizing reg with
  | nil => rfl
  | cons d rest ih =>
    show (add d >>= fun _ => rest.forM add).run.run reg =
      match (Workbench.merge reg.whitespaceName d >>= fun _ =>
        rest.forM (Workbench.merge reg.whitespaceName)).run.run reg.workbench with
      | (.ok _, w) => _
      | (.error failure, w) => _
    rw [Ensures.run_bind, Ensures.run_bind, add_run d hopen]
    generalize (Workbench.merge reg.whitespaceName d).run.run reg.workbench = result
    obtain ⟨failure | answer, w⟩ := result
    · rfl
    · exact @ih { reg with workbench := w } hopen

theorem close_run {reg : Registry} (hopen : reg.closed = false) (hfailure : reg.failure = none) :
    (close.run.run reg).1 =
      match checkReferences reg.workbench.drafts (rules reg.workbench.drafts) with
      | .error e => .error (.grammar e)
      | .ok _ => .ok (RuleSet.ofDistinct (rules reg.workbench.drafts) reg.whitespaceName
          (rules_nodup _)) := by
  obtain ⟨whitespaceName, w, closed, failure⟩ := reg
  cases hopen
  cases hfailure
  rw [close, requireOpen_bind_run _ rfl, Ensures.run_get_bind]
  simp only [Ensures.run_set_bind]
  cases checkReferences w.drafts (rules w.drafts) with
  | error e => rfl
  | ok answer =>
    simp only [RuleSet.ofRules, dif_pos (rules_nodup _)]
    rfl

def outcome (whitespaceName : Text) (ds : List Source.Definition) : Except Failure RuleSet :=
  ((do ds.forM add; close : Action RuleSet).run.run (empty whitespaceName)).1

/-- What is handed out, in terms of drafts. -/
theorem outcome_eq (whitespaceName : Text) (ds : List Source.Definition) :
    outcome whitespaceName ds =
      match (ds.forM (Workbench.merge whitespaceName)).run.run .empty with
      | (.ok _, w) =>
        match checkReferences w.drafts (rules w.drafts) with
        | .error e => .error (.grammar e)
        | .ok _ => .ok (RuleSet.ofDistinct (rules w.drafts) whitespaceName (rules_nodup _))
      | (.error failure, _) => .error failure := by
  have hrun := @forM_add_run ds (empty whitespaceName) rfl
  have hempty : (empty whitespaceName).workbench = .empty := rfl
  have hname : (empty whitespaceName).whitespaceName = whitespaceName := rfl
  rw [hempty, hname] at hrun
  rw [outcome, Ensures.run_bind, hrun]
  generalize (ds.forM (Workbench.merge whitespaceName)).run.run Workbench.empty = result
  obtain ⟨failure | answer, w⟩ := result
  · rfl
  · exact close_run rfl rfl

def plainly : Except Failure RuleSet → Except Failure (List Rule × Text)
  | .ok rs => .ok (rs.rules.map Rule.bare, rs.whitespaceName)
  | .error failure => .error failure.bare

/-- Rules of drafts that say the same. -/
theorem map_bare_rules {w other : Workbench} (h : Workbench.Embeds [] 0 w other) :
    (rules other.drafts).map Rule.bare = (rules w.drafts).map Rule.bare := by
  have hkept : other.kept [] = other.drafts.entries := by simp [Workbench.kept]
  have hdrafts := h.drafts
  rw [hkept] at hdrafts
  unfold rules
  generalize other.drafts.entries = entries' at hdrafts
  generalize w.drafts.entries = entries at hdrafts
  induction hdrafts with
  | nil => rfl
  | @cons e e' rest rest' hsame _ ih =>
    obtain ⟨hname, halike⟩ := hsame
    have hindex : e'.2.index = e.2.index := Nat.le_antisymm halike.index_le halike.le_index
    simp only [List.map_cons, ih, List.cons.injEq, and_true]
    simp only [Rule.bare, Draft.toRule, hname, halike.kind, halike.alternatives, hindex,
      halike.docs, halike.synthetic]

/-- References are checked with the same result, but for the place of an error. -/
theorem checkReferences_same {w other : Workbench} (h : Workbench.Embeds [] 0 w other) :
    SameButPlace (checkReferences w.drafts (rules w.drafts))
      (checkReferences other.drafts (rules other.drafts)) := by
  refine SameButPlace.forM (fun r r' hr => ?_) (map_bare_rules h).symm
  refine SameButPlace.forM (fun x x' hx => ?_) (Rule.names_of_bare hr)
  have hname : r'.name = r.name := (congrArg Rule.name hr).symm
  have hkind : r'.kind = r.kind := (congrArg Rule.kind hr).symm
  have hlexical : r'.isLexical = r.isLexical := by rw [Rule.isLexical, hkind, Rule.isLexical]
  have hget := h.get? (List.not_mem_nil (a := x.name))
  unfold checkReference
  rw [← hx]
  generalize w.drafts.get? x.name = draft at hget
  generalize other.drafts.get? x.name = draft' at hget
  cases hget with
  | none =>
    rw [hname]
    rfl
  | some halike =>
    simp only [halike.kind, hlexical, hname, hkind]
    split
    · rfl
    · exact .refl _

/-- What is handed out after definitions that say the same is the same, but for its spans. -/
theorem plainly_outcome {ds ds' : List Source.Definition}
    (h : ds.map Source.Definition.bare = ds'.map Source.Definition.bare) :
    plainly (outcome whitespaceName ds) = plainly (outcome whitespaceName ds') := by
  have hruns := Workbench.forM_merge_abreast whitespaceName ds ds' h .empty .empty
    (Workbench.empty_embeds [])
  have hnumbered := Workbench.numbered_of_changes
    (Workbench.Merge.Proceeds.forM (Workbench.merge_proceeds whitespaceName) ds .empty)
    Workbench.empty_numbered
  have hnumbered' := Workbench.numbered_of_changes
    (Workbench.Merge.Proceeds.forM (Workbench.merge_proceeds whitespaceName) ds' .empty)
    Workbench.empty_numbered
  rw [outcome_eq, outcome_eq]
  generalize (ds.forM (Workbench.merge whitespaceName)).run.run Workbench.empty = left
    at hruns hnumbered
  generalize (ds'.forM (Workbench.merge whitespaceName)).run.run Workbench.empty = right
    at hruns hnumbered'
  obtain ⟨failure | answer, w⟩ := left
  · obtain ⟨failure' | answer', w'⟩ := right
    · rcases hruns with hbare | hnever | hnever
      · exact congrArg Except.error hbare
      · exact hnever.elim
      · exact hnever.elim
    · exact hruns.elim
  · obtain ⟨failure' | answer', w'⟩ := right
    · exact hruns.elim
    · have hembeds : Workbench.Embeds [] 0 w w' := hruns.2
      simp only
      obtain ⟨⟨⟩, hcheck, hcheck'⟩ | ⟨e, e', hcheck, hcheck', hbare⟩ :=
        (checkReferences_same hembeds).cases
      · rw [hcheck, hcheck']
        simp only [plainly, rules_ofDistinct hnumbered, rules_ofDistinct hnumbered',
          map_bare_rules hembeds]
        rfl
      · rw [hcheck, hcheck']
        exact congrArg (fun e => Except.error (Failure.grammar e)) hbare

/-- What is handed out after calls that bring definitions that say the same. -/
theorem plainly_close {calls calls' : List Call}
    (h : (calls.flatMap Call.definitions).map Source.Definition.bare =
      (calls'.flatMap Call.definitions).map Source.Definition.bare) :
    plainly (close.run.run (after calls (empty whitespaceName))).1 =
      plainly (close.run.run (after calls' (empty whitespaceName))).1 := by
  rw [close_after calls (empty_clean whitespaceName),
    close_after calls' (empty_clean whitespaceName)]
  exact plainly_outcome h

/-- Sources compose by concatenation. Behind a source that can be read and does not end in a
docstring, a source is read as it would be alone: its definitions follow with their spans moved, or
its error is moved and says the same. And wherever a registry is given two such sources one after
the other, it may be given them as one: what it hands out in the end differs in its spans only. -/
theorem concatenation_composes {t : Text} {ds : List Source.Definition}
    (hread : Source.read t = .ok ds)
    (hlast : ∀ ls, Lexeme.scan t = .ok ls → ∀ l ∈ ls.getLast?, l.kind ≠ .doc) (more : Text) :
    (∀ others, Source.read more = .ok others →
      Source.read (t ++ more) = .ok (ds ++ others.map (·.shift t.length)) ∧
      ∀ whitespaceName before behind,
        plainly (close.run.run (after (before ++ [.text t, .text more] ++ behind)
          (empty whitespaceName))).1 =
        plainly (close.run.run (after (before ++ [.text (t ++ more)] ++ behind)
          (empty whitespaceName))).1) ∧
    ∀ e, Source.read more = .error e →
      Source.read (t ++ more) = .error (e.shiftBy t.length) ∧
        (e.shiftBy t.length).kind = e.kind ∧ (e.shiftBy t.length).rule = e.rule ∧
        (e.shiftBy t.length).problem.text = e.problem.text := by
  have happend := Source.read_append hread hlast more
  constructor
  · intro others hothers
    rw [hothers] at happend
    refine ⟨happend, fun whitespaceName before behind => plainly_close ?_⟩
    have hbare : (others.map (·.shift t.length)).map Source.Definition.bare =
        others.map Source.Definition.bare := by
      rw [List.map_map]
      exact List.map_congr_left fun d _ => d.bare_shift t.length
    have hdefinitions : ∀ {t : Text} {ds : List Source.Definition}, Source.read t = .ok ds →
        (Call.text t).definitions = ds := by
      intro t ds h
      rw [Call.definitions, h]
      rfl
    simp only [List.flatMap_append, List.flatMap_cons, List.flatMap_nil, List.append_nil,
      hdefinitions hread, hdefinitions hothers, hdefinitions happend, List.map_append, hbare]
  · intro e he
    rw [he] at happend
    obtain ⟨hproblem, hrule⟩ := e.shiftBy_same t.length
    refine ⟨happend, ?_, hrule, ?_⟩
    · rw [GrammarError.kind, hproblem, GrammarError.kind]
    · rw [hproblem]

def ruleAndComment : Text := Text.ofString "/** d */ a ::= 'x' b; /* the end */"

def digitRule : Text := Text.ofString "b :== [0-9]+;"

def barRule : Text := Text.ofString "c ::= | a;"

/-- Behind the comment a rule is read, and a mistake is found. -/
theorem concatenation_composes_comment :
    ∃ ds others e, Source.read ruleAndComment = .ok ds ∧ Source.read digitRule = .ok others ∧
      Source.read barRule = .error e ∧ ds.length = 1 ∧ others.length = 1 ∧
      e.span = some ⟨6, 7⟩ ∧
      Source.read (ruleAndComment ++ digitRule) = .ok (ds ++ others.map (·.shift 35)) ∧
      Source.read (ruleAndComment ++ barRule) = .error (e.shiftBy 35) := by
  have hfirst : (Source.read ruleAndComment).toOption.any (fun ds => ds.length == 1) = true := by
    decide +kernel
  have hsecond : (Source.read digitRule).toOption.any (fun ds => ds.length == 1) = true := by
    decide +kernel
  have hthird : (match Source.read barRule with
      | .ok _ => false
      | .error e => decide (e.span = some ⟨6, 7⟩)) = true := by
    decide +kernel
  have hends : (Lexeme.scan ruleAndComment).toOption.any (fun ls =>
      ls.getLast?.all fun l => decide (l.kind ≠ .doc)) = true := by
    decide +kernel
  obtain ⟨ds, hds, hlength⟩ := exists_of_toOption_any hfirst
  obtain ⟨others, hothers, hlength'⟩ := exists_of_toOption_any hsecond
  have hlast := Source.last_ne_doc hends
  cases hbar : Source.read barRule with
  | ok bars =>
    rw [hbar] at hthird
    cases hthird
  | error e =>
    rw [hbar] at hthird
    refine ⟨ds, others, e, hds, hothers, rfl, beq_iff_eq.mp hlength, beq_iff_eq.mp hlength',
      of_decide_eq_true hthird, ?_, ?_⟩
    · exact ((concatenation_composes hds hlast digitRule).1 others hothers).1
    · exact ((concatenation_composes hds hlast barRule).2 e hbar).1

end Registry

end GrammarKit
