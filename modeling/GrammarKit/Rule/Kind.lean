import GrammarKit.Text.Basic

/-!
The kinds of rules, and how often an item of a rule's body may stand.
-/
namespace GrammarKit

inductive RuleKind where
  | token
  | whitespace
  | production
deriving DecidableEq

namespace RuleKind

def name : RuleKind → Text
  | token => Text.ofString "Token"
  | whitespace => Text.ofString "Whitespace"
  | production => Text.ofString "Production"

def isLexical : RuleKind → Bool
  | token | whitespace => true
  | production => false

end RuleKind

inductive Quantifier where
  | one
  | maybe
  | any
  | many
deriving DecidableEq

def Quantifier.name : Quantifier → Text
  | one => Text.ofString "One"
  | maybe => Text.ofString "Maybe"
  | any => Text.ofString "Any"
  | many => Text.ofString "Many"

end GrammarKit
