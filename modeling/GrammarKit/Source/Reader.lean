import GrammarKit.Source.Definition
import GrammarKit.Source.Lexeme

/-!
Reading definitions off the lexemes of a source. A source is a row of rules and may end in a
docstring that belongs to none:

    rule         DOC? SYMBOL ('::=' | ':==') alternation ';'
    alternation  alternative ('|' alternative)*
    alternative  DOC? item+ ('->' SYMBOL)?
    item         singular ('?' | '*' | '+')?
    singular     '(' alternation ')' | SYMBOL | STRING | CHARSET | CHAR

Alternatives have names only at the top level of productions. The functions take what is left of
the lexemes and give back what they leave. They recurse on a number of steps that `steps` makes
large enough for all lexemes: no more than four calls stand between two lexemes taken.
-/
namespace GrammarKit.Source

namespace Reader

/-- The rule being read, once its name is known, and where the source ends. -/
structure Context where
  rule : Option Text
  sourceLength : Nat

def expected (ctx : Context) (what : Expectation) (rest : List Lexeme) : GrammarError :=
  match rest with
  | [] =>
    { problem := .expected what none, rule := ctx.rule, span := some (.empty ctx.sourceLength) }
  | l :: _ => { problem := .expected what (some l.text), rule := ctx.rule, span := some l.span }

def accept (kind : Lexeme.Kind) : List Lexeme → Option Lexeme × List Lexeme
  | [] => (none, [])
  | l :: rest => if l.kind = kind then (some l, rest) else (none, l :: rest)

def demand (ctx : Context) (kind : Lexeme.Kind) (what : Expectation) (rest : List Lexeme) :
    Except GrammarError (Lexeme × List Lexeme) :=
  match accept kind rest with
  | (some l, rest) => .ok (l, rest)
  | (none, rest) => .error (expected ctx what rest)

def startsSingular : Lexeme.Kind → Bool
  | .openGroup | .symbol | .string | .charset | .escape => true
  | _ => false

def quantifier? : Lexeme.Kind → Option Quantifier
  | .maybe => some .maybe
  | .any => some .any
  | .many => some .many
  | _ => none

def quantified (inner : Singular) (rest : List Lexeme) : Item Singular × List Lexeme :=
  match rest with
  | [] => (⟨inner, .one, inner.span⟩, [])
  | l :: more =>
    match quantifier? l.kind with
    | some q => (⟨inner, q, inner.span.through l.span⟩, more)
    | none => (⟨inner, .one, inner.span⟩, rest)

def alternativeName (ctx : Context) (named : Bool) (rest : List Lexeme) :
    Except GrammarError (Option Lexeme × List Lexeme) :=
  match accept .arrow rest with
  | (none, rest) => .ok (none, rest)
  | (some arrow, rest) =>
    if named then do
      let (name, rest) ← demand ctx .symbol .alternativeName rest
      .ok (some name, rest)
    else
      .error { problem := .misplacedAlternativeName, rule := ctx.rule, span := some arrow.span }

def assemble (doc : Option Lexeme) (first : Item Singular) (others : Body)
    (name : Option Lexeme) : Alternative (Item Singular) :=
  let start := (doc.map Lexeme.span).getD first.span
  let stop := (name.map Lexeme.span).getD ((others.getLast?.map Item.span).getD first.span)
  { doc := doc.map Lexeme.text, name := name.map Lexeme.text, body := first :: others,
    span := start.through stop }

mutual

def alternation (ctx : Context) (named : Bool) : Nat → List Lexeme → Except GrammarError (Alternation × List Lexeme)
  | 0, rest => .error (expected ctx .pattern rest)
  | n + 1, rest => do
    let (a, rest) ← alternative ctx named n rest
    match accept .bar rest with
    | (none, rest) => .ok ([a], rest)
    | (some _, rest) => do
      let (others, rest) ← alternation ctx named n rest
      .ok (a :: others, rest)

def alternative (ctx : Context) (named : Bool) :
    Nat → List Lexeme → Except GrammarError (Alternative (Item Singular) × List Lexeme)
  | 0, rest => .error (expected ctx .pattern rest)
  | n + 1, rest => do
    let (doc, rest) := accept .doc rest
    let (items, rest) ← body ctx n rest
    match items with
    | [] => .error (expected ctx .pattern rest)
    | first :: others => do
      let (name, rest) ← alternativeName ctx named rest
      .ok (assemble doc first others name, rest)

def body (ctx : Context) : Nat → List Lexeme → Except GrammarError (Body × List Lexeme)
  | 0, rest => .error (expected ctx .pattern rest)
  | _ + 1, [] => .ok ([], [])
  | n + 1, l :: rest =>
    if startsSingular l.kind then do
      let (inner, rest) ← singular ctx n (l :: rest)
      let (item, rest) := quantified inner rest
      let (others, rest) ← body ctx n rest
      .ok (item :: others, rest)
    else .ok ([], l :: rest)

def singular (ctx : Context) : Nat → List Lexeme → Except GrammarError (Singular × List Lexeme)
  | 0, rest => .error (expected ctx .pattern rest)
  | _ + 1, [] => .error (expected ctx .pattern [])
  | n + 1, l :: rest =>
    match l.kind with
    | .openGroup => do
      let (alternatives, rest) ← alternation ctx false n rest
      let (close, rest) ← demand ctx .closeGroup .endOfGroup rest
      .ok (.group alternatives (l.span.through close.span), rest)
    | .symbol => .ok (.symbol l.text l.span, rest)
    | .string => .ok (.literal l.text l.span, rest)
    | .charset => .ok (.charset l.text l.span, rest)
    | .escape => .ok (.escape l.text l.span, rest)
    | _ => .error (expected ctx .pattern (l :: rest))

end

/-- Enough steps to read an alternation off the lexemes. -/
def steps (rest : List Lexeme) : Nat := 4 * rest.length + 4

def definitionKind (ctx : Context) (rest : List Lexeme) : Except GrammarError (DefinitionKind × List Lexeme) :=
  match accept .production rest with
  | (some _, rest) => .ok (.production, rest)
  | (none, rest) =>
    match accept .tokenRule rest with
    | (some _, rest) => .ok (.token, rest)
    | (none, rest) => .error (expected ctx .definitionSign rest)

def definition (sourceLength : Nat) (rest : List Lexeme) : Except GrammarError (Definition × List Lexeme) := do
  let (doc, rest) := accept .doc rest
  let (name, rest) ← demand ⟨none, sourceLength⟩ .symbol .ruleName rest
  let ctx : Context := ⟨some name.text, sourceLength⟩
  let (kind, rest) ← definitionKind ctx rest
  let (alternatives, rest) ← alternation ctx (kind = .production) (steps rest) rest
  let (semicolon, rest) ← demand ctx .semicolon .endOfRule rest
  .ok ({ doc := doc.map Lexeme.text, name := name.text, kind := kind,
         alternatives := alternatives, span := (doc.getD name).span.through semicolon.span }, rest)

/-- The definitions of all lexemes that are left, at most `limit` of them. -/
def definitions (sourceLength : Nat) :
    (limit : Nat) → List Lexeme → Except GrammarError (List Definition)
  | 0, _ => .ok []
  | _ + 1, [] => .ok []
  | n + 1, l :: rest =>
    if l.kind = .doc ∧ rest = [] then .ok []
    else do
      let (first, rest) ← definition sourceLength (l :: rest)
      let others ← definitions sourceLength n rest
      .ok (first :: others)

end Reader

def read (source : Text) : Except GrammarError (List Definition) := do
  let lexemes ← Lexeme.scan source
  Reader.definitions source.length lexemes.length lexemes

end GrammarKit.Source
