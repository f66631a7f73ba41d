import GrammarKit.Grammar.Run

/-!
The command line: compiles a grammar file, and then either describes the grammar or parses an input
with it. Running it needs only a function that reads files.
-/
namespace GrammarKit

structure CommandLine where
  grammar : Option Text := none
  start : Option Text := none
  input : Option Text := none
  inputFile : Option Text := none
  tokenize : Bool := false
  whitespaceName : Option Text := none
  /-- Colours are on unless they are turned off. -/
  colours : Option Bool := none
deriving DecidableEq

namespace CommandLine

def isSwitch (name : Text) : Bool := name = Text.ofString "tokenize" || name = Text.ofString "colors"

/-- Gives an option a value. A switch is on if the value says `true`. An option that there is not
changes nothing. -/
def set (cl : CommandLine) (name value : Text) : CommandLine :=
  if name = Text.ofString "grammar" then { cl with grammar := some value }
  else if name = Text.ofString "start" then { cl with start := some value }
  else if name = Text.ofString "input" then { cl with input := some value }
  else if name = Text.ofString "input-file" then { cl with inputFile := some value }
  else if name = Text.ofString "whitespace-rule" then { cl with whitespaceName := some value }
  else if name = Text.ofString "tokenize" then
    { cl with tokenize := value = Text.ofString "true" }
  else if name = Text.ofString "colors" then
    { cl with colours := some (value = Text.ofString "true") }
  else cl

def unquote (value : Text) : Text :=
  match value with
  | q :: rest =>
    if (q = unit '\'' ∨ q = unit '"') ∧ rest.getLast? = some q then rest.dropLast else value
  | [] => []

/-- A number with a minus sign, which is a value and not an option. -/
def isNegativeNumber (argument : Text) : Bool :=
  let isDigit : CodeUnit → Bool := fun u => unit '0' ≤ u && u ≤ unit '9'
  match argument with
  | sign :: rest =>
    let whole := rest.takeWhile isDigit
    sign == unit '-' &&
      match rest.dropWhile isDigit with
      | [] => !whole.isEmpty
      | point :: fraction => point == unit '.' && !fraction.isEmpty && fraction.all isDigit
  | [] => false

def isValue (argument : Text) : Bool := argument.head? != some (unit '-') || isNegativeNumber argument

def valueOf (switch : Bool) (next : Option Text) : Text × Bool :=
  let absent := if switch then Text.ofString "true" else []
  match next with
  | none => (absent, false)
  | some argument =>
    if argument = Text.ofString "true" ∨ argument = Text.ofString "false" then (argument, true)
    else if !switch && isValue argument then (argument, true)
    else (absent, false)

/-- Reads the arguments from left to right. What is no option is passed over, and two dashes alone
end the options. -/
def readFrom (cl : CommandLine) : List Text → CommandLine
  | [] => cl
  | argument :: rest =>
    if argument = Text.ofString "--" then cl
    else if (Text.ofString "--").isPrefixOf argument then
      let option := argument.drop 2
      if unit '=' ∈ option then
        let name := option.takeWhile (· ≠ unit '=')
        readFrom (cl.set name (unquote (option.drop (name.length + 1)))) rest
      else if (Text.ofString "no-").isPrefixOf option && isSwitch (option.drop 3) then
        readFrom (cl.set (option.drop 3) (Text.ofString "false")) rest
      else
        let (value, taken) := valueOf (isSwitch option) rest.head?
        match rest with
        | [] => cl.set option value
        | next :: rest =>
          if taken then readFrom (cl.set option value) rest
          else readFrom (cl.set option value) (next :: rest)
    else readFrom cl rest

def read (arguments : List Text) : CommandLine := readFrom {} arguments

structure Report where
  exitCode : Nat := 0
  stdout : List Text := []
  stderr : List Text := []

def Report.ofAnswer (answer : Except Failure Text) : Report :=
  match answer with
  | .ok t => { stdout := [t] }
  | .error e => { exitCode := 1, stderr := [e.message] }

def baseName (path : Text) : Text :=
  (path.reverse.takeWhile (· ≠ unit '/')).reverse

/-- Runs a command line, where `readFile` gives what is at a path. The input is read before the
grammar. -/
def run (readFile : Text → Except Fault Text) (cl : CommandLine) : Except Fault Report := do
  let palette : Palette := ⟨cl.colours.getD true⟩
  let input ← match cl.inputFile with
    | some path => (readFile path).map some
    | none => .ok cl.input
  let path := cl.grammar.getD []
  let source ← readFile path
  match input with
  | none =>
    let compiled := Grammar.load (baseName path) source cl.whitespaceName
    .ok (.ofAnswer (compiled.answer.map Grammar.describe))
  | some input =>
    let ran := Grammar.loadAndRun (baseName path) source palette cl.whitespaceName input
      { start := cl.start, tokenize := cl.tokenize }
    .ok (.ofAnswer ran.answer)

end CommandLine

end GrammarKit
