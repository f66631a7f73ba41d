import GrammarKit.Parse.Parser
import GrammarKit.Rule.Registry
import GrammarKit.Tokenizer

/-!
Compiled grammars: everything needed to tokenize and to parse, made from source text.
-/
namespace GrammarKit

structure Grammar where
  rules : RuleSet
  vocabulary : Vocabulary
  variants : VariantTable
  tokenizer : Tokenizer
  parser : Parser

namespace Grammar

def assemble (rules : RuleSet) (vocabulary : Vocabulary) (variants : VariantTable) :
    Except Fault Grammar := do
  let names := (vocabulary.real ++ rules.whitespace.toList).map Rule.name
  let automata : Automaton.Table rules := .ofNames rules names
  let tokenizer ← Tokenizer.ofRules rules vocabulary automata
  .ok { rules, vocabulary, variants, tokenizer, parser := { rules, variants, automata } }

def liftGrammar {α : Type} (x : Except GrammarError α) : Except Failure α :=
  x.mapError Failure.grammar

def ofRules (rules : RuleSet) : Except Failure Grammar := do
  let vocabulary ← liftGrammar (Vocabulary.ofRules rules)
  let variants ← liftGrammar (VariantTable.ofRules rules)
  (assemble rules vocabulary variants).mapError Failure.fault

def readRules (source whitespaceName : Text) : Except Failure RuleSet :=
  let action : Registry.Action RuleSet := do
    Registry.addText source
    Registry.close
  (action.run.run (Registry.empty whitespaceName)).1

def locateFailure (source : Text) : Failure → Failure
  | .grammar e => .grammar (e.withSource source)
  | failure => failure

def compile (source : Text) (whitespaceName : Text) : Except Failure Grammar :=
  ((readRules source whitespaceName).bind ofRules).mapError (locateFailure source)

def summary (g : Grammar) : Text :=
  Text.ofString "compiled " ++ Text.ofNat g.rules.size ++ Text.ofString " rules: " ++
    Text.ofNat g.vocabulary.real.length ++ Text.ofString " tokens, " ++
    Text.ofNat g.vocabulary.fragments.length ++ Text.ofString " fragments, " ++
    Text.ofNat g.rules.productions.length ++ Text.ofString " productions"

def compileLog (compiled : Except Failure Grammar) : List Text :=
  match compiled with
  | .ok g => [g.summary]
  | .error _ => []

/-- A rule on one line: its kind, its name and the tags of its alternatives. -/
def describeRule (g : Grammar) (rule : Rule) : Text :=
  let kind := if g.vocabulary.isFragment rule.name then Text.ofString "Fragment" else rule.kind.name
  let tags := match g.variants.get? rule.name with
    | some t => Text.ofString " -> " ++ Text.join (Text.ofString " | ") (t.variants.map Variant.tag)
    | none => []
  Text.padRight (unit ' ') 10 kind ++ unit ' ' :: rule.name ++ tags

def describe (g : Grammar) : Text :=
  Text.join [unit '\n'] (g.rules.rules.map g.describeRule)

end Grammar

end GrammarKit
