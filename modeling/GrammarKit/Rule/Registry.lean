import GrammarKit.Error.Failure
import GrammarKit.Rule.Draft
import GrammarKit.Source.Reader

/-!
A registry takes definitions, as text or one by one, and in the end hands out the set of rules. Text
that cannot be read changes nothing. A definition that cannot be merged may leave a rule half made,
so the registry remembers the first such failure and gives it instead of any rules.
-/
namespace GrammarKit

structure Registry where
  whitespaceName : Text
  workbench : Workbench := .empty
  /-- Whether the rules have been handed out. -/
  closed : Bool := false
  /-- The first definition that failed. -/
  failure : Option GrammarError := none

namespace Registry

def defaultWhitespaceName : Text := [unit '_']

def empty (whitespaceName : Text) : Registry := { whitespaceName := whitespaceName }

abbrev Action := ExceptT Failure (StateM Registry)

def requireOpen : Action Unit := do
  if (← get).closed then throw (.fault .registryClosed)

def add (d : Source.Definition) : Action Unit := do
  requireOpen
  let reg ← get
  match (Workbench.merge reg.whitespaceName d).run.run reg.workbench with
  | (.ok _, w) => set { reg with workbench := w }
  | (.error failure, w) =>
    set { reg with workbench := w, failure := reg.failure.or failure.grammar? }
    throw failure

/-- Reads a text of definitions and adds them up to the first that fails. -/
def addText (text : Text) : Action Unit := do
  requireOpen
  match Source.read text with
  | .error e => throw (.grammar e)
  | .ok definitions => definitions.forM add

/-- What is wrong with a reference in a rule, if anything. -/
def checkReference (drafts : NameTable Draft) (rule : Rule) (r : Reference) :
    Except GrammarError Unit :=
  match drafts.get? r.name with
  | none =>
    .error { problem := .undefinedSymbol r.name, rule := some rule.name, span := some r.span }
  | some target =>
    if rule.isLexical ∧ target.kind = .production then
      .error {
        problem := .invalidReference rule.kind rule.name r.name
        rule := some rule.name
        span := some r.span }
    else .ok ()

def checkReferences (drafts : NameTable Draft) (rules : List Rule) : Except GrammarError Unit :=
  rules.forM fun rule => rule.references.forM (checkReference drafts rule)

def rules (drafts : NameTable Draft) : List Rule :=
  drafts.entries.map fun (name, draft) => draft.toRule name

theorem rules_nodup (drafts : NameTable Draft) : ((rules drafts).map Rule.name).Nodup := by
  have h : (rules drafts).map Rule.name = drafts.entries.map Prod.fst := by
    simp [rules, Draft.toRule, Function.comp_def]
  rw [h]
  exact drafts.nodup

/-- Hands out the rules, if no definition failed and every reference has a fitting target. -/
def close : Action RuleSet := do
  requireOpen
  let reg ← get
  match reg.failure with
  | some e => throw (.grammar e)
  | none =>
    set { reg with closed := true }
    let drafts := reg.workbench.drafts
    match checkReferences drafts (rules drafts) with
    | .error e => throw (.grammar e)
    | .ok _ =>
      match RuleSet.ofRules (rules drafts) reg.whitespaceName with
      | .error f => throw (.fault f)
      | .ok rs => pure rs

end Registry

end GrammarKit
