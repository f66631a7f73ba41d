import GrammarKit.Pattern.Escape
import GrammarKit.Pattern.Matcher

/-!
Patterns as they are written: string literals, character sets and bare escapes. Each is first
read as a row of characters, plain or escaped, and then turned into matchers.
-/
namespace GrammarKit

/-- The text of a pattern, where it stands in the grammar and in which rule. -/
structure Pattern where
  text : Text
  span : Span
  rule : Option Text
deriving DecidableEq

namespace Pattern

/-- A character of a pattern and the offset in the pattern where its writing starts. -/
structure Character where
  codePoint : CodePoint
  escaped : Bool
  offset : Nat
deriving DecidableEq

def characterAt (p : Pattern) (offset : Nat) :
    Except GrammarError (Option (Character × Nat)) :=
  if p.text[offset]? = some Escape.sign then do
    let (c, width) ← Escape.readAt p.text offset p.span.start p.rule
    .ok (some (⟨c, true, offset⟩, width))
  else .ok ((p.text.codePointFrom offset).map fun (c, width) => (⟨c, false, offset⟩, width))

/-- The characters that start at or after `offset` and before `stop`. -/
def charactersFrom (p : Pattern) (stop offset : Nat) : Except GrammarError (List Character) :=
  if offset < stop then do
    match ← p.characterAt offset with
    | none => .ok []
    | some (c, width) =>
      if 0 < width then do
        let rest ← p.charactersFrom stop (offset + width)
        .ok (c :: rest)
      else .ok [c]
  else .ok []
termination_by stop - offset

def body (p : Pattern) : Except GrammarError (List Character) :=
  p.charactersFrom (p.text.length - 1) 1

def literal (p : Pattern) : Except GrammarError (List Matcher) := do
  let characters ← p.body
  if characters.isEmpty then
    .error { problem := .emptyLiteral p.text, rule := p.rule, span := some p.span }
  else .ok (characters.map fun c => Matcher.single c.codePoint)

def escape (p : Pattern) : Except GrammarError Matcher := do
  match ← p.charactersFrom p.text.length 0 with
  | [⟨c, true, _⟩] => .ok (Matcher.single c)
  | _ => .error { problem := .notOneEscape p.text, rule := p.rule, span := some p.span }

namespace Character

def isBare (c : Character) (mark : Char) : Bool := !c.escaped && c.codePoint == mark.toNat

def isSpecial (c : Character) : Bool := c.isBare '^' || c.isBare '-'

end Character

def unescaped (p : Pattern) (c : Character) : GrammarError :=
  { problem := .unescapedInCharset c.codePoint
    rule := p.rule
    span := some ⟨p.span.start + c.offset, p.span.start + c.offset + 1⟩ }

/-- The ranges of a set, after its negation sign: single characters, and two characters with a
bare `-` between them. -/
def entries (p : Pattern) : List Character → Except GrammarError (List CodeRange)
  | [] => .ok []
  | c :: dash :: last :: rest =>
    if c.isSpecial then .error (p.unescaped c)
    else if dash.isBare '-' then
      if last.isSpecial then .error (p.unescaped last)
      else if last.codePoint < c.codePoint then
        .error {
          problem := .reversedRange p.text
          rule := p.rule
          span := some ⟨p.span.start + c.offset, p.span.start + c.offset + 1⟩ }
      else do
        let ranges ← p.entries rest
        .ok (⟨c.codePoint, last.codePoint⟩ :: ranges)
    else do
      let ranges ← p.entries (dash :: last :: rest)
      .ok (⟨c.codePoint, c.codePoint⟩ :: ranges)
  | c :: rest =>
    if c.isSpecial then .error (p.unescaped c)
    else do
      let ranges ← p.entries rest
      .ok (⟨c.codePoint, c.codePoint⟩ :: ranges)

def charset (p : Pattern) : Except GrammarError Matcher := do
  match ← p.body with
  | [] => .error { problem := .emptyCharset p.text, rule := p.rule, span := some p.span }
  | c :: rest =>
    if c.isBare '^' then do
      let ranges ← p.entries rest
      .ok (Matcher.ofRanges ranges true)
    else do
      let ranges ← p.entries (c :: rest)
      .ok (Matcher.ofRanges ranges false)

end Pattern

end GrammarKit
