import GrammarKit.Error.Failure
import GrammarKit.Logged
import GrammarKit.Parse.Evaluator

/-!
Parsing a whole input from a start rule. The answer is a tree that ends where the input ends, or an
error that says how far the parser got.
-/
namespace GrammarKit

structure Parser where
  rules : RuleSet
  variants : VariantTable
  automata : Automaton.Table rules

namespace Parser

def defaultLimit : Nat := 2000

/-- A parser that keeps the automata of the token rules that productions name, and that of the
whitespace rule. -/
def ofRules (rules : RuleSet) (variants : VariantTable) : Parser where
  rules := rules
  variants := variants
  automata :=
    let named := rules.productions.flatMap fun rule => rule.references.map Reference.name
    .ofNames rules ((rules.whitespace.toList.map Rule.name ++ named).eraseDups.filter fun name =>
      (rules.get? name).any Rule.isLexical)

def session (p : Parser) (input : Input) : Session :=
  { rules := p.rules, variants := p.variants, automata := p.automata, input := input }

def attempt (p : Parser) (limit : Nat) (start : Text) (input : Input) : Attempt Outcome := do
  let s := p.session input
  let cursor ← Attempt.ofFault (s.skip 0)
  s.rule limit [] start cursor

def noAlternativeMatched (input : Input) (farthest : Option Farthest) : ParseError :=
  let f := farthest.getD ⟨0, []⟩
  .noAlternativeMatched (input.position f.cursor) f.names

def ofHalt (input : Input) : Halt → Failure
  | .noProgress frame => .parse (.noProgress (input.position frame.cursor) frame.rule)
  | .tooDeep frame => .parse (.tooDeep (input.position frame.cursor) frame.rule)
  | .fault f => .fault f

/-- What a match of the start rule comes to. Input that is left is an error, unless it is
allowed. -/
def judge (start : Text) (input : Input) (allowTrailing : Bool) (farthest : Option Farthest)
    (m : Match) : Except Failure Tree :=
  if m.stop < input.length ∧ ¬ allowTrailing then
    if farthest.any fun f => decide (m.stop ≤ f.cursor) then
      .error (.parse (noAlternativeMatched input farthest))
    else .error (.parse (.trailingInput (input.position m.stop) start))
  else
    match m.children with
    | .node rule tag children span :: _ => .ok (.node rule tag children span)
    | _ => .error (.fault (.noNode start))

def parse (p : Parser) (limit : Nat) (start : Text) (input : Input) (allowTrailing : Bool) :
    Except Failure Tree × Trace :=
  if p.rules.isProduction start then
    let (result, progress) := (p.attempt limit start input).run.run Progress.initial
    let answer := match result with
      | .error halt => .error (ofHalt input halt)
      | .ok none => .error (.parse (noAlternativeMatched input progress.farthest))
      | .ok (some m) => judge start input allowTrailing progress.farthest m
    (answer, progress.trace)
  else (.error (.parse (.unknownRule start)), [])

def run (p : Parser) (palette : Palette) (start : Text) (input : Input) (allowTrailing : Bool) :
    Logged (Except Failure Tree) :=
  let (answer, trace) := p.parse defaultLimit start input allowTrailing
  ⟨answer, trace.log palette input⟩

end Parser

end GrammarKit
