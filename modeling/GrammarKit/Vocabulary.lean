import GrammarKit.Error.Grammar
import GrammarKit.Rule.Set
import GrammarKit.Search

/-!
Which token rules a tokenizer emits. Token rules that a production leads to, directly or through
other token rules, are real tokens; the other token rules are fragments, there to be used inside of
token rules. No token rule may lead back to itself.
-/
namespace GrammarKit

structure Vocabulary where
  /-- The real tokens in the order of the rules. -/
  real : List Rule
  fragments : List Rule

namespace Vocabulary

def isReal (v : Vocabulary) (name : Text) : Bool := v.real.any fun rule => decide (rule.name = name)

def isFragment (v : Vocabulary) (name : Text) : Bool :=
  v.fragments.any fun rule => decide (rule.name = name)

def lexicalTargets (rs : RuleSet) (rule : Rule) : List Rule :=
  (rule.references.filterMap fun r => rs.get? r.name).filter Rule.isLexical

/-- Looks for a cycle below a rule, depth first. The path holds the rules above it, and `done` the
rules below which there is none. Gives the cycle, or the rules that are done then. A path of
different rules ends before the depth does. -/
def visit (rs : RuleSet) :
    (depth : Nat) → (path done : List Text) → Rule → Except (List Text) (List Text)
  | 0, _, done, _ => .ok done
  | depth + 1, path, done, rule =>
    if rule.name ∈ path then
      .error (path.dropWhile (fun name => decide (name ≠ rule.name)) ++ [rule.name])
    else if rule.name ∈ done then .ok done
    else do
      let done ← (lexicalTargets rs rule).foldlM (visit rs depth (path ++ [rule.name])) done
      .ok (rule.name :: done)

def cycle? (rs : RuleSet) : Option (List Text) :=
  match (rs.rules.filter Rule.isLexical).foldlM (visit rs (rs.size + 1) []) [] with
  | .error path => some path
  | .ok _ => none

def recursive (rs : RuleSet) (path : List Text) : GrammarError :=
  { problem := .recursiveToken path
    rule := path.head?
    span := (path.head?.bind rs.get?).map Rule.span }

def tokenNames (rs : RuleSet) (name : Text) : List Text :=
  match rs.get? name with
  | some rule => if rule.kind = .token then rule.references.map Reference.name else []
  | none => []

theorem tokenNames_eq_nil (rs : RuleSet) (name : Text) (h : name ∉ rs.names) :
    tokenNames rs name = [] := by
  unfold tokenNames
  split
  · next rule hrule =>
    exact absurd (List.mem_map.mpr ⟨rule, RuleSet.mem_of_get? hrule, RuleSet.get?_name hrule⟩) h
  · rfl

def tokenGraph (rs : RuleSet) : Graph Text where
  next := tokenNames rs
  points := rs.names
  next_eq_nil := tokenNames_eq_nil rs

def reached (rs : RuleSet) : List Text :=
  (tokenGraph rs).reach
    (rs.productions.flatMap fun rule => rule.references.map Reference.name)

/-- Sorts the token rules into real tokens and fragments. -/
def ofRules (rs : RuleSet) : Except GrammarError Vocabulary :=
  match cycle? rs with
  | some path => .error (recursive rs path)
  | none =>
    let names := reached rs
    let isReal : Rule → Bool := fun rule => rule.synthetic || decide (rule.name ∈ names)
    .ok {
      real := (rs.ofKind .token).filter isReal
      fragments := (rs.ofKind .token).filter fun rule => !isReal rule }

end Vocabulary

end GrammarKit
