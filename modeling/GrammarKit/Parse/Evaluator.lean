import GrammarKit.Automaton.Build
import GrammarKit.Parse.Trace
import GrammarKit.Rule.Variant
import GrammarKit.Tree

/-!
Ordered choice. The first alternative that matches is taken, repetition takes all it can and gives
nothing back, and a rule that matches makes one node. On characters a symbol of a token rule takes
the longest match of the rule, and white space is passed over before the input and after each
singular; on tokens it takes one token of its name.

A rule that is called again at the cursor where it is active would go on for ever; this ends the
parse. So does a call that is nested deeper than the limit.
-/
namespace GrammarKit

structure Match where
  stop : Nat
  children : List Tree
deriving DecidableEq

inductive Halt where
  | noProgress (frame : Frame)
  | tooDeep (frame : Frame)
  | fault (fault : Fault)

/-- A part of a parse: it puts events on record and may halt. -/
abbrev Attempt := ExceptT Halt (StateM Progress)

/-- A match, or nothing if the part does not match and the parser may try something else. -/
abbrev Outcome := Option Match

namespace Attempt

def record (e : Event) : Attempt Unit := modify (Progress.record e)

def ofFault {α : Type} (x : Except Fault α) : Attempt α :=
  match x with
  | .ok a => pure a
  | .error f => throw (.fault f)

end Attempt

/-- What is parsed, and with what. -/
structure Session where
  rules : RuleSet
  variants : VariantTable
  automata : Automaton.Table rules
  input : Input
  length : Nat := input.length
  length_eq : length = input.length := by rfl

namespace Session

open Attempt

/-- Passes over matches as long as they take something. -/
def skipFrom (a : Automaton) (cursor : Nat) (rest : Text) : Nat :=
  match rest with
  | [] => cursor
  | u :: rest =>
    match a.longestAt cursor (u :: rest) with
    | none => cursor
    | some stop =>
      if cursor < stop then skipFrom a stop ((u :: rest).drop (stop - cursor)) else cursor
termination_by rest.length
decreasing_by
  simp only [List.length_drop, List.length_cons]
  omega

def skip (s : Session) (cursor : Nat) : Except Fault Nat :=
  match s.input, s.rules.whitespace with
  | .text t, some rule => do
    let a ← s.automata.get rule.name
    .ok (skipFrom a cursor (t.drop cursor))
  | _, _ => .ok cursor

def token? (s : Session) (name : Text) (cursor : Nat) : Except Fault (Option (Token × Nat)) :=
  match s.input with
  | .tokens ts =>
    .ok ((ts[cursor]?.filter fun t => decide (t.name = name)).map fun t => (t, cursor + 1))
  | .text t => do
    let a ← s.automata.get name
    let rest := t.drop cursor
    .ok ((a.longestAt cursor rest).map fun stop =>
      (⟨name, rest.take (stop - cursor), ⟨cursor, stop⟩⟩, stop))

def takeToken (s : Session) (name : Text) (cursor : Nat) : Attempt Outcome := do
  match ← ofFault (s.token? name cursor) with
  | none =>
    record (.tokenMissed name cursor)
    pure none
  | some (token, stop) =>
    let stop ← ofFault (s.skip stop)
    record (.tokenTaken name cursor stop)
    pure (some ⟨stop, [.token token]⟩)

def settle (s : Session) (outcome : Outcome) : Attempt Outcome :=
  match outcome with
  | none => pure none
  | some m => do
    let stop ← ofFault (s.skip m.stop)
    pure (some { m with stop := stop })

/-- Takes as many matches in a row as there are, and counts them. The row ends with a match that
takes nothing. -/
def takeAll (length : Nat) (part : Nat → Attempt Outcome) (cursor : Nat) : Attempt (Nat × Match) := do
  record (.iterationTried cursor)
  match ← part cursor with
  | none => pure (0, ⟨cursor, []⟩)
  | some m =>
    if cursor < m.stop ∧ cursor < length then
      let (count, rest) ← takeAll length part m.stop
      pure (count + 1, ⟨rest.stop, m.children ++ rest.children⟩)
    else pure (1, m)
termination_by length - cursor

def quantified (s : Session) (quantifier : Quantifier) (part : Nat → Attempt Outcome)
    (cursor : Nat) : Attempt Outcome :=
  match quantifier with
  | .one => part cursor
  | .maybe => do
    match ← part cursor with
    | none => pure (some ⟨cursor, []⟩)
    | some m => pure (some m)
  | .any => do
    let (_, m) ← takeAll s.length part cursor
    pure (some m)
  | .many => do
    let (count, m) ← takeAll s.length part cursor
    pure (if count = 0 then none else some m)

mutual

def singular (s : Session) (call : Text → Nat → Attempt Outcome) :
    Singular → Nat → Attempt Outcome
  | .group alternatives, cursor => do
    record (.groupTried cursor)
    let outcome ← alternation s call alternatives cursor
    s.settle outcome
  | .symbol name _, cursor =>
    if s.rules.isProduction name then do
      let outcome ← call name cursor
      s.settle outcome
    else s.takeToken name cursor
  | .literal source _ _, cursor => s.takeToken source cursor
  | .charset source _ _, cursor => s.takeToken source cursor

def alternation (s : Session) (call : Text → Nat → Attempt Outcome) :
    List (Alternative (Item Singular)) → Nat → Attempt Outcome
  | [], _ => pure none
  | a :: rest, cursor => do
    match ← alternative s call a cursor with
    | some m => pure (some m)
    | none => alternation s call rest cursor

def alternative (s : Session) (call : Text → Nat → Attempt Outcome) :
    Alternative (Item Singular) → Nat → Attempt Outcome
  | ⟨_, _, items, _⟩, cursor => body s call items cursor

def body (s : Session) (call : Text → Nat → Attempt Outcome) :
    List (Item Singular) → Nat → Attempt Outcome
  | [], cursor => pure (some ⟨cursor, []⟩)
  | i :: rest, cursor => do
    match ← item s call i cursor with
    | none => pure none
    | some m =>
      match ← body s call rest m.stop with
      | none => pure none
      | some n => pure (some ⟨n.stop, m.children ++ n.children⟩)

def item (s : Session) (call : Text → Nat → Attempt Outcome) :
    Item Singular → Nat → Attempt Outcome
  | ⟨inner, quantifier⟩, cursor => s.quantified quantifier (singular s call inner) cursor

end

/-- Tries the alternatives of a rule, the first of them at position `index`, and says which one
matched. -/
def choose (s : Session) (call : Text → Nat → Attempt Outcome) (index : Nat) :
    Alternation → Nat → Attempt (Option (Nat × Match))
  | [], _ => pure none
  | a :: rest, cursor => do
    match ← alternative s call a cursor with
    | some m => pure (some (index, m))
    | none => choose s call (index + 1) rest cursor

/-- The node of a rule whose alternative at position `index` matched from a cursor on. -/
def node (s : Session) (rule : Rule) (cursor index : Nat) (m : Match) : Tree :=
  .node rule.name (s.variants.tag rule.name index) m.children
    (Tree.spanOf m.children (s.input.position cursor))

def expand (s : Session) (call : Text → Nat → Attempt Outcome) (active : List Frame) (r : Rule)
    (cursor : Nat) : Attempt Outcome := do
  let frame : Frame := ⟨r.name, cursor⟩
  record (.entered frame active)
  match ← s.choose call 0 r.alternatives cursor with
  | none =>
    record (.rejected frame active.length)
    pure none
  | some (index, m) =>
    record (.accepted frame (s.variants.tag r.name index) active.length)
    pure (some ⟨m.stop, [s.node r cursor index m]⟩)

/-- Looks a production up and goes on with it, unless it is active at the cursor. -/
def enter (s : Session) (active : List Frame) (name : Text) (cursor : Nat)
    (go : Rule → Attempt Outcome) : Attempt Outcome :=
  match s.rules.get? name with
  | none => throw (.fault (.noRuleNamed name))
  | some r =>
    let frame : Frame := ⟨name, cursor⟩
    if frame ∈ active then throw (.noProgress frame) else go r

def rule (s : Session) : (limit : Nat) → (active : List Frame) → Text → Nat → Attempt Outcome
  | 0, active, name, cursor =>
    s.enter active name cursor fun _ => throw (.tooDeep ⟨name, cursor⟩)
  | limit + 1, active, name, cursor =>
    s.enter active name cursor fun r =>
      s.expand (s.rule limit (⟨name, cursor⟩ :: active)) active r cursor

end Session

end GrammarKit
