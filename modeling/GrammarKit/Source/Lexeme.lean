import GrammarKit.Comment
import GrammarKit.Pattern.Escape

/-!
The lexemes of grammar source. `Piece.front` says what stands at the front of a text: a lexeme, or
something to skip, in either case of positive width; `Lexeme.scan` cuts the whole source into such
pieces and keeps the lexemes.
-/
namespace GrammarKit

namespace Lexeme

inductive Kind where
  | symbol
  | production
  | tokenRule
  | semicolon
  | bar
  | arrow
  | openGroup
  | closeGroup
  | maybe
  | any
  | many
  | string
  | charset
  | escape
  | doc
deriving DecidableEq

def Kind.name : Kind → Text
  | symbol => Text.ofString "SYMBOL"
  | production => Text.ofString "::="
  | tokenRule => Text.ofString ":=="
  | semicolon => Text.ofString ";"
  | bar => Text.ofString "|"
  | arrow => Text.ofString "->"
  | openGroup => Text.ofString "("
  | closeGroup => Text.ofString ")"
  | maybe => Text.ofString "?"
  | any => Text.ofString "*"
  | many => Text.ofString "+"
  | string => Text.ofString "STRING"
  | charset => Text.ofString "CHARSET"
  | escape => Text.ofString "CHAR"
  | doc => Text.ofString "DOC"

end Lexeme

/-- A lexeme of grammar source. The text of a docstring is its cleaned text, while the span covers
the whole comment; of every other lexeme the text is what stands in the source. -/
structure Lexeme where
  kind : Lexeme.Kind
  text : Text
  span : Span
deriving DecidableEq

namespace Lexeme

def isBlank (u : CodeUnit) : Bool :=
  u == unit ' ' || u == unit '\t' || u == unit '\r' || u == unit '\n'

def isLetter (u : CodeUnit) : Bool :=
  (unit 'A' ≤ u && u ≤ unit 'Z') || (unit 'a' ≤ u && u ≤ unit 'z')

def startsSymbol (u : CodeUnit) : Bool := isLetter u || u == unit '_'

def continuesSymbol (u : CodeUnit) : Bool :=
  startsSymbol u || (unit '0' ≤ u && u ≤ unit '9')

/-- The width of a symbol of which `width` units are read. A dash belongs to a symbol if a unit
that continues a symbol is next. -/
def symbolWidth (width : Nat) : Text → Nat
  | [] => width
  | [u] => if continuesSymbol u then width + 1 else width
  | u :: v :: r =>
    if continuesSymbol u then symbolWidth (width + 1) (v :: r)
    else if u = unit '-' ∧ continuesSymbol v then symbolWidth (width + 2) r
    else width

theorem le_symbolWidth (width : Nat) (t : Text) : width ≤ symbolWidth width t := by
  fun_induction symbolWidth width t <;> omega

/-- The width of a string or set of which `width` units are read, up to and with the closing
mark, or nothing if it is never closed. Escapes are passed over whole, and a line feed ends the
search except in a set. -/
def delimitedWidth (closing : CodeUnit) (width : Nat) (t : Text) : Option Nat :=
  match t with
  | [] => none
  | u :: r =>
    if u = Escape.sign then
      delimitedWidth closing (width + Escape.extent r) (r.drop (Escape.extent r - 1))
    else if u = closing then some (width + 1)
    else if u = unit '\n' ∧ closing ≠ unit ']' then none
    else delimitedWidth closing (width + 1) r
termination_by t.length
decreasing_by
  all_goals simp only [List.length_cons, List.length_drop]; omega

theorem lt_delimitedWidth {closing : CodeUnit} {width w : Nat} {t : Text}
    (h : delimitedWidth closing width t = some w) : width < w := by
  fun_induction delimitedWidth closing width t with
  | case1 => cases h
  | case2 width r ih => have := ih h; omega
  | case3 => simp only [Option.some.injEq] at h; omega
  | case4 => cases h
  | case5 width u r _ _ _ ih => have := ih h; omega

/-- The operators and what they are read as. No operator is the start of another. -/
def operators : List (Text × Kind) :=
  [(Text.ofString "::=", .production), (Text.ofString ":==", .tokenRule), (Text.ofString "->", .arrow),
    (Text.ofString ";", .semicolon), (Text.ofString "|", .bar), (Text.ofString "(", .openGroup),
    (Text.ofString ")", .closeGroup), (Text.ofString "?", .maybe), (Text.ofString "*", .any),
    (Text.ofString "+", .many)]

def operator? (t : Text) : Option (Text × Kind) :=
  operators.find? fun (sign, _) => sign.isPrefixOf t

theorem operator?_length_pos {t : Text} {o : Text × Kind} (h : operator? t = some o) :
    0 < o.1.length := by
  have hall : ∀ o ∈ operators, 0 < o.1.length := by decide
  exact hall o (List.mem_of_find?_eq_some h)

end Lexeme

/-- What stands at the front of a text: a lexeme, or blank space or a plain comment to skip. -/
structure Piece where
  lexeme : Option (Lexeme.Kind × Text)
  width : Nat
  width_pos : 0 < width

namespace Piece

/-- Why no piece starts here, and how many units the error covers. -/
abbrev Refusal := GrammarError.Problem × Nat

def verbatim (kind : Lexeme.Kind) (t : Text) (width : Nat) (h : 0 < width) : Piece :=
  ⟨some (kind, t.take width), width, h⟩

def delimited (kind : Lexeme.Kind) (closing : CodeUnit) (problem : GrammarError.Problem)
    (t rest : Text) : Except Refusal Piece :=
  match h : Lexeme.delimitedWidth closing 1 rest with
  | some width => .ok (verbatim kind t width (by have := Lexeme.lt_delimitedWidth h; omega))
  | none => .error (problem, 1)

def ofUnits (u : CodeUnit) (rest : Text) : Except Refusal Piece :=
  let t := u :: rest
  if Lexeme.startsSymbol u then
    .ok (verbatim .symbol t (Lexeme.symbolWidth 1 rest) (Lexeme.le_symbolWidth 1 rest))
  else if u = unit '"' ∨ u = unit '\'' then delimited .string u .unterminatedString t rest
  else if u = unit '[' then delimited .charset (unit ']') .unterminatedCharset t rest
  else if u = Escape.sign then
    .ok (verbatim .escape t (Escape.extent rest) (Escape.extent_pos rest))
  else
    match h : Lexeme.operator? t with
    | some (sign, kind) =>
      .ok (verbatim kind t sign.length (Lexeme.operator?_length_pos h))
    | none => .error (.unexpectedCharacter u, 1)

def front (u : CodeUnit) (rest : Text) : Except Refusal Piece :=
  if Lexeme.isBlank u then .ok ⟨none, 1, Nat.one_pos⟩
  else
    match h : Comment.front (u :: rest) with
    | .unterminated => .error (.unterminatedComment, rest.length + 1)
    | .comment doc body width =>
      .ok ⟨if doc then some (.doc, Comment.clean body) else none, width, Comment.front_stop_pos h⟩
    | .none => ofUnits u rest

end Piece

namespace Lexeme

def scanFrom (offset : Nat) (t : Text) : Except GrammarError (List Lexeme) :=
  match t with
  | [] => .ok []
  | u :: rest =>
    match Piece.front u rest with
    | .error (problem, width) =>
      .error { problem := problem, span := some ⟨offset, offset + width⟩ }
    | .ok piece => do
      let lexemes ← scanFrom (offset + piece.width) ((u :: rest).drop piece.width)
      match piece.lexeme with
      | some (kind, text) => .ok (⟨kind, text, ⟨offset, offset + piece.width⟩⟩ :: lexemes)
      | none => .ok lexemes
termination_by t.length
decreasing_by
  have := piece.width_pos
  simp only [List.length_drop, List.length_cons]
  omega

def scan (source : Text) : Except GrammarError (List Lexeme) := scanFrom 0 source

end Lexeme

end GrammarKit
