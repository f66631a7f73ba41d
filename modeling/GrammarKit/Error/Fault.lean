import GrammarKit.Text.Basic

/-!
Faults: misuse of an operation, as opposed to a mistake in a grammar or in an input.
-/
namespace GrammarKit

inductive Fault where
  | duplicateKey (key : Text)
  | noRuleNamed (name : Text)
  | recursiveTokenRule (name : Text)
  /-- A rule matched and left no tree of its own. -/
  | noNode (rule : Text)
  | registryClosed
  | noProductionRule
  | invalidCodePoint (value : Int)
  | noSuchFile (path : Text)
  | notDirectory (path : Text)
  | nameTooLong (path : Text)
  | isDirectory
  /-- A failure raised by the caller's own code, told in its own words. -/
  | raised (text : Text)
deriving DecidableEq

def Fault.message : Fault → Text
  | duplicateKey key => Text.ofString "key " ++ key ++ Text.ofString " already in map"
  | noRuleNamed name => Text.ofString "No rule named " ++ name
  | recursiveTokenRule name => Text.ofString "Cannot inline recursive token rule " ++ name
  | noNode rule => Text.ofString "rule " ++ rule ++ Text.ofString " did not produce a node"
  | registryClosed => Text.ofString "RuleRegistry has already been finalized"
  | noProductionRule => Text.ofString "The grammar has no production rules to start from"
  | invalidCodePoint value => Text.ofString "Invalid code point " ++ Text.ofInt value
  | noSuchFile path =>
    Text.ofString "ENOENT: no such file or directory, open '" ++ path ++ Text.ofString "'"
  | notDirectory path =>
    Text.ofString "ENOTDIR: not a directory, open '" ++ path ++ Text.ofString "'"
  | nameTooLong path =>
    Text.ofString "ENAMETOOLONG: name too long, open '" ++ path ++ Text.ofString "'"
  | isDirectory => Text.ofString "EISDIR: illegal operation on a directory, read"
  | raised text => text

end GrammarKit
