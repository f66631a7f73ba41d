import GrammarKit.Grammar.Basic

/-!
Running a grammar on an input. What is done on the way is told in a log of lines.
-/
namespace GrammarKit.Grammar

def parseText (g : Grammar) (palette : Palette) (start : Text) (t : Text) (allowTrailing : Bool) :
    Logged (Except Failure Tree) :=
  let tokenized := g.tokenizer.run t
  match tokenized.result with
  | .error e => ⟨.error (.lex e), tokenized.log palette⟩
  | .ok tokens =>
    let parsed := g.parser.run palette start (.tokens tokens.toArray) allowTrailing
    ⟨parsed.answer, tokenized.log palette ++ parsed.log⟩

structure RunOptions where
  /-- The rule to start from; the first production if there is none. -/
  start : Option Text := none
  /-- Whether the input is tokenized first. -/
  tokenize : Bool := false
  allowTrailing : Bool := false

def run (g : Grammar) (palette : Palette) (input : Text) (options : RunOptions) :
    Logged (Except Failure Tree) :=
  match options.start.or (g.rules.productions.head?.map Rule.name) with
  | none => ⟨.error (.fault .noProductionRule), []⟩
  | some start =>
    if options.tokenize then g.parseText palette start input options.allowTrailing
    else g.parser.run palette start (.text input) options.allowTrailing

def load (name : Text) (source : Text) (whitespaceName : Option Text) :
    Logged (Except Failure Grammar) :=
  let compiled := compile source (whitespaceName.getD Registry.defaultWhitespaceName)
  ⟨compiled, (Text.ofString "Compiling " ++ name) :: compileLog compiled⟩

/-- Compiles a grammar that was read from a file, runs it on an input and shows the tree. -/
def loadAndRun (name : Text) (source : Text) (palette : Palette) (whitespaceName : Option Text)
    (input : Text) (options : RunOptions) : Logged (Except Failure Text) :=
  let compiled := load name source whitespaceName
  match compiled.answer with
  | .error e => ⟨.error e, compiled.log⟩
  | .ok g =>
    let ran := g.run palette input options
    match ran.answer with
    | .error e => ⟨.error e, compiled.log ++ ran.log⟩
    | .ok tree =>
      let line := palette.paint .bold (palette.paint .green (Text.ofString "✓")) ++
        Text.ofString " Parsed " ++ tree.name
      ⟨.ok (tree.pretty palette []), compiled.log ++ ran.log ++ [line]⟩

end GrammarKit.Grammar
