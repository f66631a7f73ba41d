import GrammarKit.Rule.Kind
import GrammarKit.Span
import GrammarKit.Text.Location
import GrammarKit.Text.Quoted

/-!
What can be wrong with a grammar. Each problem is a case of its own, its kind and its wording
are read off the case, and an error adds the rule and the place where the problem was met. Once
the source is known the message names line and column and shows the line.
-/
namespace GrammarKit

inductive Expectation where
  | ruleName
  | definitionSign
  | endOfRule
  | pattern
  | alternativeName
  | endOfGroup
deriving DecidableEq

def Expectation.name : Expectation → Text
  | ruleName => Text.ofString "a rule name"
  | definitionSign => Text.ofString "\"::=\" or \":==\""
  | endOfRule => Text.ofString "\";\" to end the rule"
  | pattern => Text.ofString "a pattern"
  | alternativeName => Text.ofString "an alternative name after \"->\""
  | endOfGroup => Text.ofString "\")\" to close the group"

namespace GrammarError

inductive Kind where
  | syntaxError
  | conflictingKind
  | emptyLiteral
  | invalidEscape
  | recursiveToken
  | duplicateVariantName
  | undefinedSymbol
  | invalidReference
deriving DecidableEq

def Kind.name : Kind → Text
  | syntaxError => Text.ofString "Syntax"
  | conflictingKind => Text.ofString "ConflictingKind"
  | emptyLiteral => Text.ofString "EmptyLiteral"
  | invalidEscape => Text.ofString "InvalidEscape"
  | recursiveToken => Text.ofString "RecursiveToken"
  | duplicateVariantName => Text.ofString "DuplicateVariantName"
  | undefinedSymbol => Text.ofString "UndefinedSymbol"
  | invalidReference => Text.ofString "InvalidReference"

inductive Problem where
  | unterminatedComment
  | unterminatedString
  | unterminatedCharset
  | unexpectedCharacter (u : CodeUnit)
  /-- Something else was found, or the end of the input. -/
  | expected (what : Expectation) (found : Option Text)
  | misplacedAlternativeName
  | notOneEscape (text : Text)
  | emptyCharset (text : Text)
  | unescapedInCharset (c : CodePoint)
  | reversedRange (text : Text)
  | whitespaceProduction (rule : Text)
  | conflictingKind (rule : Text) (before after : RuleKind)
  | emptyLiteral (text : Text)
  | invalidEscape (text : Text)
  | recursiveToken (path : List Text)
  | duplicateVariantName (tag : Text)
  | undefinedSymbol (name : Text)
  | invalidReference (kind : RuleKind) (rule target : Text)
  /-- A problem told in the caller's own words. -/
  | stated (kind : Kind) (text : Text)
deriving DecidableEq

namespace Problem

def kind : Problem → Kind
  | conflictingKind .. => .conflictingKind
  | emptyLiteral _ => .emptyLiteral
  | invalidEscape _ => .invalidEscape
  | recursiveToken _ => .recursiveToken
  | duplicateVariantName _ => .duplicateVariantName
  | undefinedSymbol _ => .undefinedSymbol
  | invalidReference .. => .invalidReference
  | stated kind _ => kind
  | _ => .syntaxError

def text : Problem → Text
  | unterminatedComment => Text.ofString "unterminated comment"
  | unterminatedString => Text.ofString "unterminated string"
  | unterminatedCharset => Text.ofString "unterminated character set"
  | unexpectedCharacter u => Text.ofString "unexpected character " ++ Text.quoted [u]
  | expected what found =>
    Text.ofString "expected " ++ what.name ++ Text.ofString " but found " ++
      match found with
      | some t => Text.quoted t
      | none => Text.ofString "end of input"
  | misplacedAlternativeName =>
    Text.ofString
      "alternative names are only allowed on top-level alternatives of production rules"
  | notOneEscape t => t ++ Text.ofString " is not a single character escape"
  | emptyCharset t => Text.ofString "empty character set " ++ t
  | unescapedInCharset c =>
    unit '"' :: Text.ofCodePoint c ++ Text.ofString "\" must be escaped inside a character set"
  | reversedRange t => Text.ofString "reversed range in character set " ++ t
  | whitespaceProduction rule =>
    Text.ofString "the whitespace rule " ++ rule ++ Text.ofString " must be defined with \":==\""
  | conflictingKind rule before after =>
    rule ++ Text.ofString " was defined as a " ++ before.name ++
      Text.ofString " rule and is redefined as a " ++ after.name ++ Text.ofString " rule"
  | emptyLiteral t =>
    Text.ofString "string literal " ++ t ++ Text.ofString " must match at least one character"
  | invalidEscape t => Text.ofString "invalid escape sequence " ++ Text.quoted t
  | recursiveToken path =>
    Text.ofString "token rules cannot be recursive: " ++ Text.join (Text.ofString " -> ") path
  | duplicateVariantName tag =>
    Text.ofString "variant name " ++ tag ++ Text.ofString " is used more than once"
  | undefinedSymbol name => name ++ Text.ofString " is not defined"
  | invalidReference kind rule target =>
    kind.name ++ Text.ofString " rule " ++ rule ++
      Text.ofString " cannot reference production rule " ++ target
  | stated _ t => t

end Problem

end GrammarError

structure GrammarError where
  problem : GrammarError.Problem
  rule : Option Text := none
  span : Option Span := none
  source : Option Text := none
deriving DecidableEq

namespace GrammarError

def kind (e : GrammarError) : Kind := e.problem.kind

def withSource (e : GrammarError) (source : Text) : GrammarError :=
  { e with source := some source }

/-- The same error in a text that starts `offset` units earlier. An error that moves forgets
its source. -/
def shiftBy (e : GrammarError) (offset : Int) : GrammarError :=
  match e.span with
  | none => e
  | some span =>
    if offset = 0 then e else { e with span := some (span.shift offset), source := none }

def headline (e : GrammarError) : Text :=
  e.kind.name ++ Text.ofString "Error" ++
    (match e.span with
      | some span => Text.ofString " at " ++ Text.describeOffset e.source span.start
      | none => []) ++
    (match e.rule with
      | some rule => Text.ofString " in " ++ rule
      | none => []) ++
    Text.ofString ": " ++ e.problem.text

def excerpt (e : GrammarError) : List Text :=
  match e.source, e.span with
  | some source, some span => (source.excerpt span.start).map (Text.ofString "  " ++ ·)
  | _, _ => []

def message (e : GrammarError) : Text :=
  Text.join [unit '\n'] (e.headline :: e.excerpt)

end GrammarError

end GrammarKit
