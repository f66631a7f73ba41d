import GrammarKit.Error.Fault
import GrammarKit.Rule.Basic
import GrammarKit.Sort

/-!
The rules of one grammar, in the order of their first definition and no two of the same name.
-/
namespace GrammarKit

structure RuleSet where
  rules : List Rule
  /-- The name that marks the whitespace rule. -/
  whitespaceName : Text
  nodup : (rules.map Rule.name).Nodup
  sorted : rules.Pairwise fun a b => a.index ≤ b.index

namespace RuleSet

def byIndex (a b : Rule) : Bool := decide (a.index ≤ b.index)

theorem inOrder_byIndex (rules : List Rule) : inOrder byIndex rules = rules.mergeSort byIndex :=
  inOrder_eq_mergeSort (by simp only [byIndex, decide_eq_true_eq]; omega)
    (by simp only [byIndex, Bool.or_eq_true, decide_eq_true_eq]; omega) rules

theorem perm_inOrder (rules : List Rule) : (inOrder byIndex rules).Perm rules := by
  rw [inOrder_byIndex]
  exact List.mergeSort_perm rules byIndex

theorem pairwise_inOrder (rules : List Rule) :
    (inOrder byIndex rules).Pairwise fun a b => a.index ≤ b.index := by
  have h := @List.pairwise_mergeSort Rule byIndex
    (by simp only [byIndex, decide_eq_true_eq]; omega)
    (by simp only [byIndex, Bool.or_eq_true, decide_eq_true_eq]; omega) rules
  rw [inOrder_byIndex]
  simpa only [byIndex, decide_eq_true_eq] using h

/-- Rules of different names as a set. Rules of the same index stay as they are given. -/
def ofDistinct (rules : List Rule) (whitespaceName : Text)
    (h : (rules.map Rule.name).Nodup) : RuleSet where
  rules := inOrder byIndex rules
  whitespaceName := whitespaceName
  nodup := ((perm_inOrder rules).map Rule.name).nodup_iff.mpr h
  sorted := pairwise_inOrder rules

def repeated? (seen : List Text) : List Text → Option Text
  | [] => none
  | name :: rest => if name ∈ seen then some name else repeated? (name :: seen) rest

def ofRules (rules : List Rule) (whitespaceName : Text) : Except Fault RuleSet :=
  if h : (rules.map Rule.name).Nodup then .ok (ofDistinct rules whitespaceName h)
  else
    .error (.duplicateKey ((repeated? [] ((inOrder byIndex rules).map Rule.name)).getD []))

def size (rs : RuleSet) : Nat := rs.rules.length

def get? (rs : RuleSet) (name : Text) : Option Rule :=
  rs.rules.find? fun rule => decide (rule.name = name)

def contains (rs : RuleSet) (name : Text) : Bool := (rs.get? name).isSome

def names (rs : RuleSet) : List Text := rs.rules.map Rule.name

def whitespace (rs : RuleSet) : Option Rule :=
  (rs.get? rs.whitespaceName).filter fun rule => decide (rule.kind = .whitespace)

def ofKind (rs : RuleSet) (kind : RuleKind) : List Rule :=
  rs.rules.filter fun rule => decide (rule.kind = kind)

def productions (rs : RuleSet) : List Rule := rs.ofKind .production

def isProduction (rs : RuleSet) (name : Text) : Bool :=
  (rs.get? name).any fun rule => decide (rule.kind = .production)

theorem get?_name {rs : RuleSet} {name : Text} {rule : Rule} (h : rs.get? name = some rule) :
    rule.name = name := by
  simpa using List.find?_some h

theorem mem_of_get? {rs : RuleSet} {name : Text} {rule : Rule} (h : rs.get? name = some rule) :
    rule ∈ rs.rules :=
  List.mem_of_find?_eq_some h

end RuleSet

end GrammarKit
