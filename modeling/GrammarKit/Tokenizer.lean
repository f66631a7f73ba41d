import GrammarKit.Automaton.Build
import GrammarKit.Error.Lex
import GrammarKit.NameTable
import GrammarKit.Token
import GrammarKit.Vocabulary

/-!
Tokenizers. At each position the candidate with the longest match wins, of several the one whose
rule was defined first, and a match that takes nothing never counts. The candidates are the real
tokens and the whitespace rule, whose matches are dropped.
-/
namespace GrammarKit

structure Candidate where
  name : Text
  automaton : Automaton
  /-- Whether its matches are dropped. -/
  ignored : Bool

structure Tokenizer where
  /-- In the order in which ties are broken. -/
  candidates : List Candidate
  /-- The names of the tokens it emits. -/
  alphabet : List Text

namespace Tokenizer

/-- The rules that take part, in the order in which ties are broken. -/
def candidateRules (rs : RuleSet) (v : Vocabulary) : List Rule :=
  inOrder RuleSet.byIndex (v.real ++ rs.whitespace.toList)

def candidate (rs : RuleSet) (automata : Automaton.Table rs) (rule : Rule) :
    Except Fault Candidate := do
  let automaton ← automata.get rule.name
  .ok ⟨rule.name, automaton, decide (rs.whitespace.map Rule.name = some rule.name)⟩

def ofRules (rs : RuleSet) (v : Vocabulary) (automata : Automaton.Table rs) :
    Except Fault Tokenizer := do
  let candidates ← (candidateRules rs v).mapM (candidate rs automata)
  let table ← NameTable.ofList (candidates.map fun c => (c.name, c))
  .ok ⟨table.values, v.real.map Rule.name⟩

structure Hit where
  candidate : Candidate
  stop : Nat

/-- Keeps the better of the best hit so far and a candidate's match, if that is not empty. -/
def improve (position : Nat) (rest : Text) (best : Option Hit) (c : Candidate) : Option Hit :=
  match c.automaton.longestAt position rest with
  | none => best
  | some stop =>
    if position < stop ∧ ∀ hit ∈ best, hit.stop < stop then some ⟨c, stop⟩ else best

def best (tk : Tokenizer) (position : Nat) (rest : Text) : Option Hit :=
  tk.candidates.foldl (improve position rest) none

theorem lt_stop_of_best {tk : Tokenizer} {position : Nat} {rest : Text} {hit : Hit}
    (h : tk.best position rest = some hit) : position < hit.stop := by
  have key : ∀ (cs : List Candidate) (best : Option Hit), (∀ b ∈ best, position < b.stop) →
      ∀ b ∈ cs.foldl (improve position rest) best, position < b.stop := by
    intro cs
    induction cs with
    | nil => exact fun best hb => hb
    | cons c cs ih =>
      intro best hb
      apply ih
      intro b hmem
      unfold improve at hmem
      split at hmem
      · exact hb b hmem
      · split at hmem
        · next hlt =>
          simp only [Option.mem_def, Option.some.injEq] at hmem
          subst hmem
          exact hlt.1
        · exact hb b hmem
  exact key tk.candidates none (by simp) hit h

/-- One step: the token that was emitted, or none where whitespace was dropped, and the position
after it. -/
structure Step where
  token : Option Token
  position : Nat
deriving DecidableEq

def stepOf (position : Nat) (rest : Text) (hit : Hit) : Step where
  token :=
    if hit.candidate.ignored then none
    else some ⟨hit.candidate.name, rest.take (hit.stop - position), ⟨position, hit.stop⟩⟩
  position := hit.stop

def refuse (tk : Tokenizer) (input : Text) (position : Int) : LexError :=
  ⟨input, position, tk.candidates.map Candidate.name⟩

/-- The step at a position, or none from the end of the input on. No token starts before the
input does. -/
def next (tk : Tokenizer) (input : Text) (position : Int) : Except LexError (Option Step) :=
  if input.length ≤ position then .ok none
  else
    let rest := input.ahead position
    match tk.best position.toNat rest with
    | none => .error (tk.refuse input position)
    | some hit => .ok (some (stepOf position.toNat rest hit))

/-- The steps that tokenizing an input makes, and the error that ends them. -/
structure Run where
  steps : List Step
  error : Option LexError

def runFrom (tk : Tokenizer) (input : Text) (position : Nat) (rest : Text) (done : List Step) :
    Run :=
  if rest.isEmpty then ⟨done.reverse, none⟩
  else
    match _h : tk.best position rest with
    | none => ⟨done.reverse, some (tk.refuse input position)⟩
    | some hit =>
      tk.runFrom input hit.stop (rest.drop (hit.stop - position))
        (stepOf position rest hit :: done)
termination_by rest.length
decreasing_by
  have := lt_stop_of_best _h
  have : rest.length ≠ 0 := by simp_all
  simp only [List.length_drop]
  omega

def run (tk : Tokenizer) (input : Text) : Run := tk.runFrom input 0 input []

def Run.tokens (run : Run) : List Token := run.steps.filterMap Step.token

def Run.result (run : Run) : Except LexError (List Token) :=
  match run.error with
  | some e => .error e
  | none => .ok run.tokens

def Step.log (palette : Palette) (step : Step) : List Text :=
  step.token.toList.map fun token => Text.ofString "token " ++ token.render palette

def Run.log (palette : Palette) (run : Run) : List Text := run.steps.flatMap (Step.log palette)

def tokenize (tk : Tokenizer) (input : Text) : Except LexError (List Token) :=
  (tk.run input).result

/-- A place in an input from which tokens are taken one at a time. After an error there are none. -/
structure Stream where
  position : Nat
  rest : Text
  failed : Bool

namespace Stream

def start (input : Text) : Stream := ⟨0, input, false⟩

def weight (s : Stream) : Nat := s.rest.length + if s.failed then 0 else 1

def after (s : Stream) (hit : Hit) : Stream :=
  ⟨hit.stop, s.rest.drop (hit.stop - s.position), false⟩

def fail (s : Stream) : Stream := { s with failed := true }

theorem weight_fail_lt {s : Stream} (hfailed : ¬ s.failed = true) : s.fail.weight < s.weight := by
  simp [weight, fail, hfailed]

theorem weight_after_lt {tk : Tokenizer} {s : Stream} {hit : Hit} (hfailed : ¬ s.failed = true)
    (hempty : ¬ s.rest.isEmpty = true) (hbest : tk.best s.position s.rest = some hit) :
    (s.after hit).weight < s.weight := by
  have hrest : 0 < s.rest.length := List.length_pos_iff.mpr fun h => hempty (by rw [h]; rfl)
  have hlt := lt_stop_of_best hbest
  simp only [weight, after, if_neg hfailed, Bool.false_eq_true, if_false, List.length_drop]
  omega

/-- The next token or the error, if one is left, and the stream after it. White space is dropped on
the way. -/
def next (tk : Tokenizer) (input : Text) (s : Stream) : Option (Except LexError Token) × Stream :=
  if _hfailed : s.failed then (none, s)
  else if _hempty : s.rest.isEmpty then (none, s)
  else
    match _hbest : tk.best s.position s.rest with
    | none => (some (.error (tk.refuse input s.position)), s.fail)
    | some hit =>
      match (stepOf s.position s.rest hit).token with
      | some token => (some (.ok token), s.after hit)
      | none => next tk input (s.after hit)
termination_by s.weight
decreasing_by exact weight_after_lt _hfailed _hempty _hbest

theorem weight_next_lt {tk : Tokenizer} {input : Text} {s r : Stream} {item : Except LexError Token}
    (h : s.next tk input = (some item, r)) : r.weight < s.weight := by
  fun_induction next tk input s with
  | case1 | case2 => cases h
  | case3 s hfailed =>
    cases h
    exact weight_fail_lt hfailed
  | case4 s hfailed hempty hit hbest =>
    cases h
    exact weight_after_lt hfailed hempty hbest
  | case5 s hfailed hempty hit hbest htoken ih =>
    exact Nat.lt_trans (ih h) (weight_after_lt hfailed hempty hbest)

def drainFrom (tk : Tokenizer) (input : Text) (s : Stream) (done : List (Except LexError Token)) :
    List (Except LexError Token) :=
  match _h : s.next tk input with
  | (none, _) => done.reverse
  | (some item, r) => r.drainFrom tk input (item :: done)
termination_by s.weight
decreasing_by exact weight_next_lt _h

end Stream

def stream (tk : Tokenizer) (input : Text) : List (Except LexError Token) :=
  (Stream.start input).drainFrom tk input []

end Tokenizer

end GrammarKit
