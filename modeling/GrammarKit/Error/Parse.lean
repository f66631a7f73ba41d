import GrammarKit.Text.Basic

/-!
The ways a parse can end without a tree.
-/
namespace GrammarKit

inductive ParseError where
  /-- Nothing that was tried at the farthest position matched. -/
  | noAlternativeMatched (position : Int) (tried : List Text)
  /-- A rule called itself again where it stood. -/
  | noProgress (position : Int) (rule : Text)
  | unknownRule (rule : Text)
  | trailingInput (position : Int) (rule : Text)
  | tooDeep (position : Int) (rule : Text)
deriving DecidableEq

namespace ParseError

def position : ParseError → Int
  | noAlternativeMatched p _ | noProgress p _ | trailingInput p _ | tooDeep p _ => p
  | unknownRule _ => 0

def rule? : ParseError → Option Text
  | noAlternativeMatched .. => none
  | noProgress _ r | trailingInput _ r | tooDeep _ r | unknownRule r => some r

def tried : ParseError → List Text
  | noAlternativeMatched _ names => names
  | _ => []

def opening (position : Int) : Text :=
  Text.ofString "ParseError at " ++ Text.ofInt position ++ Text.ofString ": "

def message : ParseError → Text
  | noAlternativeMatched p names =>
    opening p ++ Text.ofString "expected one of " ++ Text.join (Text.ofString ", ") names
  | noProgress p r => opening p ++ r ++ Text.ofString " invoked itself without consuming input"
  | unknownRule r => Text.ofString "ParseError: " ++ r ++ Text.ofString " is not a production rule"
  | trailingInput p r => opening p ++ Text.ofString "input remains after " ++ r
  | tooDeep p r => opening p ++ r ++ Text.ofString " is nested too deeply"

end ParseError

end GrammarKit
