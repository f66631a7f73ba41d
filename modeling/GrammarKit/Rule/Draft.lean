import GrammarKit.Error.Failure
import GrammarKit.NameTable
import GrammarKit.Pattern.Basic
import GrammarKit.Rule.Variant
import GrammarKit.Source.Definition

/-!
Rules in the making. Definitions of the same name are merged into one draft. A pattern in a
production is moved into a token rule of its own, named by the pattern's text, and a symbol takes
its place; a pattern in a token rule stays where it is. Drafts and moved patterns draw their indices
from one counter. A definition that fails leaves behind what it did before it failed.
-/
namespace GrammarKit

structure Draft where
  kind : RuleKind
  alternatives : Alternation
  index : Nat
  docs : List Text
  synthetic : Bool
  span : Span

namespace Draft

def tags (name : Text) (draft : Draft) : List Text :=
  draft.alternatives.zipIdx.map fun (a, i) => a.tag name i

/-- The finished rule. Its docstrings are joined with a blank line between them. -/
def toRule (name : Text) (draft : Draft) : Rule where
  name := name
  kind := draft.kind
  alternatives := draft.alternatives
  index := draft.index
  doc := if draft.docs.isEmpty then none else some (Text.join (Text.ofString "\n\n") draft.docs)
  synthetic := draft.synthetic
  span := draft.span

end Draft

/-- All drafts of a grammar and the index that the next one gets. -/
structure Workbench where
  drafts : NameTable Draft
  nextIndex : Nat

namespace Workbench

def empty : Workbench := ⟨.empty, 0⟩

abbrev Merge := ExceptT Failure (StateM Workbench)

namespace Merge

def ofGrammar {α : Type} (x : Except GrammarError α) : Merge α :=
  liftExcept (x.mapError Failure.grammar)

def ofFault {α : Type} (x : Except Fault α) : Merge α := liftExcept (x.mapError Failure.fault)

end Merge

def patternDraft (pattern : Singular) (index : Nat) (span : Span) : Draft where
  kind := .token
  alternatives := [{ body := [⟨pattern, .one⟩], span := span }]
  index := index
  docs := []
  synthetic := true
  span := span

/-- Makes the token rule of a pattern, unless the name is taken. -/
def addPattern (source : Text) (pattern : Singular) (span : Span) (w : Workbench) :
    Except Fault Workbench :=
  if source ∈ w.drafts.keys then .ok w
  else do
    let drafts ← w.drafts.push source (patternDraft pattern w.nextIndex span)
    .ok ⟨drafts, w.nextIndex + 1⟩

/-- Puts a pattern where it belongs in a rule of a kind. -/
def settle (kind : RuleKind) (source : Text) (span : Span) (pattern : Singular) : Merge Singular :=
  if kind = .production then do
    let w ← get
    set (← Merge.ofFault (w.addPattern source pattern span))
    pure (.symbol source span)
  else pure pattern

mutual

def singular (owner : Text) (kind : RuleKind) : Source.Singular → Merge Singular
  | .group alternatives _ => do
    let alternatives ← alternation owner kind alternatives
    pure (.group alternatives)
  | .symbol name span => pure (.symbol name span)
  | .literal text span => do
    let matchers ← Merge.ofGrammar (Pattern.literal ⟨text, span, some owner⟩)
    settle kind text span (.literal text matchers span)
  | .charset text span => do
    let matcher ← Merge.ofGrammar (Pattern.charset ⟨text, span, some owner⟩)
    settle kind text span (.charset text matcher span)
  | .escape text span => do
    let matcher ← Merge.ofGrammar (Pattern.escape ⟨text, span, some owner⟩)
    settle kind text span (.literal text [matcher] span)

def alternation (owner : Text) (kind : RuleKind) :
    List (Alternative (Source.Item Source.Singular)) → Merge Alternation
  | [] => pure []
  | a :: rest => do
    let first ← alternative owner kind a
    let others ← alternation owner kind rest
    pure (first :: others)

def alternative (owner : Text) (kind : RuleKind) :
    Alternative (Source.Item Source.Singular) → Merge (Alternative (Item Singular))
  | ⟨doc, name, items, span⟩ => do
    let items ← body owner kind items
    pure ⟨doc, name, items, span⟩

def body (owner : Text) (kind : RuleKind) : List (Source.Item Source.Singular) → Merge Body
  | [] => pure []
  | i :: rest => do
    let first ← item owner kind i
    let others ← body owner kind rest
    pure (first :: others)

def item (owner : Text) (kind : RuleKind) : Source.Item Source.Singular → Merge (Item Singular)
  | ⟨inner, quantifier, _⟩ => do
    let inner ← singular owner kind inner
    pure ⟨inner, quantifier⟩

end

def kindOf (whitespaceName : Text) (d : Source.Definition) : Except GrammarError RuleKind :=
  match d.kind with
  | .production =>
    if d.name = whitespaceName then
      .error { problem := .whitespaceProduction d.name, rule := some d.name, span := some d.span }
    else .ok .production
  | .token => .ok (if d.name = whitespaceName then .whitespace else .token)

/-- Finds the draft of a definition or starts one, and takes an index in either case. -/
def start (d : Source.Definition) (kind : RuleKind) : Merge Unit := do
  let w ← get
  match w.drafts.get? d.name with
  | some draft =>
    if draft.kind = kind then set { w with nextIndex := w.nextIndex + 1 }
    else
      throw (.grammar {
        problem := .conflictingKind d.name draft.kind kind
        rule := some d.name
        span := some d.span })
  | none =>
    let drafts ← Merge.ofFault (w.drafts.push d.name ⟨kind, [], w.nextIndex, [], false, d.span⟩)
    set (⟨drafts, w.nextIndex + 1⟩ : Workbench)

def updateDraft (name : Text) (f : Draft → Draft) : Merge Unit :=
  modify fun w => { w with drafts := w.drafts.update name f }

def addDoc (name : Text) : Option Text → Merge Unit
  | some (u :: doc) => updateDraft name fun draft => { draft with docs := draft.docs ++ [u :: doc] }
  | _ => pure ()

/-- Adds an alternative to a draft, if its tag is new to the production. -/
def addAlternative (name : Text) (kind : RuleKind) (a : Alternative (Item Singular)) :
    Merge Unit := do
  let w ← get
  let draft := w.drafts.get? name
  let index := (draft.map fun d => d.alternatives.length).getD 0
  let tags := (draft.map (Draft.tags name)).getD []
  let tag := a.tag name index
  if kind = .production ∧ tag ∈ tags then
    throw (.grammar (Variant.duplicate name tag a.span))
  else updateDraft name fun d => { d with alternatives := d.alternatives ++ [a] }

def merge (whitespaceName : Text) (d : Source.Definition) : Merge Unit := do
  let kind ← Merge.ofGrammar (kindOf whitespaceName d)
  start d kind
  addDoc d.name d.doc
  d.alternatives.forM fun a => do
    let a ← alternative d.name kind a
    addAlternative d.name kind a

end Workbench

end GrammarKit
