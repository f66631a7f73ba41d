import GrammarKit.Automaton.Basic
import GrammarKit.Rule.Set

/-!
The automaton of a token rule, built along the structure of the rule between two given states. A
symbol is replaced by the rule it names, so the automaton stands on its own.
-/
namespace GrammarKit.Automaton

abbrev Build := StateT (Array (List Edge)) (Except Fault)

namespace Build

def addState : Build Nat := modifyGet fun edges => (edges.size, edges.push [])

def addEdge (source target : Nat) (matcher : Option Matcher) : Build Unit :=
  modify fun edges => edges.modify source (· ++ [⟨matcher, target⟩])

def chain (source target : Nat) : List Matcher → Build Unit
  | [] => pure ()
  | [m] => addEdge source target (some m)
  | m :: rest => do
    let middle ← addState
    addEdge source middle (some m)
    chain middle target rest

/-- A loop that takes a part once or more between two states; gives the state where each turn
starts. -/
def loop (part : Nat → Nat → Build Unit) (source target : Nat) : Build Nat := do
  let first ← addState
  let last ← addState
  addEdge source first none
  part first last
  addEdge last first none
  addEdge last target none
  pure first

def quantified (quantifier : Quantifier) (part : Nat → Nat → Build Unit) (source target : Nat) :
    Build Unit :=
  match quantifier with
  | .one => part source target
  | .maybe => do
    part source target
    addEdge source target none
  | .any => do
    let first ← loop part source target
    addEdge first target none
  | .many => do
    let _ ← loop part source target

mutual

def singular (inline : Text → Nat → Nat → Build Unit) : Singular → Nat → Nat → Build Unit
  | .group alternatives, source, target => alternation inline alternatives source target
  | .symbol name _, source, target => inline name source target
  | .literal _ matchers _, source, target => chain source target matchers
  | .charset _ matcher _, source, target => addEdge source target (some matcher)

def alternation (inline : Text → Nat → Nat → Build Unit) :
    List (Alternative (Item Singular)) → Nat → Nat → Build Unit
  | [], _, _ => pure ()
  | a :: rest, source, target => do
    alternative inline a source target
    alternation inline rest source target

def alternative (inline : Text → Nat → Nat → Build Unit) :
    Alternative (Item Singular) → Nat → Nat → Build Unit
  | ⟨_, _, items, _⟩, source, target => body inline items source target

def body (inline : Text → Nat → Nat → Build Unit) :
    List (Item Singular) → Nat → Nat → Build Unit
  | [], source, target => addEdge source target none
  | i :: rest, source, target => do
    let middle ← addState
    item inline i source middle
    body inline rest middle target

def item (inline : Text → Nat → Nat → Build Unit) : Item Singular → Nat → Nat → Build Unit
  | ⟨inner, quantifier⟩, source, target =>
    quantified quantifier (singular inline inner) source target

end

/-- Builds the rule of a name. The names in `inside` are the rules that are being built around it,
all different, so that the depth does not run out. -/
def rule (rs : RuleSet) : (depth : Nat) → (inside : List Text) → Text → Nat → Nat → Build Unit
  | 0, _, name, _, _ => throw (.recursiveTokenRule name)
  | depth + 1, inside, name, source, target =>
    match rs.get? name with
    | none => throw (.noRuleNamed name)
    | some r =>
      if name ∈ inside then throw (.recursiveTokenRule name)
      else alternation (rule rs depth (name :: inside)) r.alternatives source target

end Build

def ofRule (rs : RuleSet) (name : Text) : Except Fault Automaton := do
  let (_, edges) ← (Build.rule rs (rs.size + 1) [] name start accept).run #[[], []]
  .ok ⟨name, edges⟩

/-- The automata of some rules of a set, built ahead. -/
structure Table (rs : RuleSet) where
  entries : List (Text × Automaton)
  sound : ∀ e ∈ entries, ofRule rs e.1 = .ok e.2

namespace Table

variable {rs : RuleSet}

def ofNames (rs : RuleSet) (names : List Text) : Table rs where
  entries := names.filterMap fun name =>
    match ofRule rs name with
    | .ok a => some (name, a)
    | .error _ => none
  sound := by
    intro e he
    obtain ⟨name, -, h⟩ := List.mem_filterMap.mp he
    split at h
    · next a ha =>
      cases h
      exact ha
    · cases h

/-- The automaton of a name, built now if it was not built ahead. -/
def get (table : Table rs) (name : Text) : Except Fault Automaton :=
  match table.entries.find? fun e => decide (e.1 = name) with
  | some e => .ok e.2
  | none => ofRule rs name

theorem get_eq (table : Table rs) (name : Text) : table.get name = ofRule rs name := by
  unfold get
  split
  · next e he =>
    have hname : e.1 = name := by simpa using List.find?_some he
    rw [← hname, table.sound e (List.mem_of_find?_eq_some he)]
  · rfl

end Table

end GrammarKit.Automaton
