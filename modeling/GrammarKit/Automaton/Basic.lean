import GrammarKit.Pattern.Matcher
import GrammarKit.Search

/-!
Finite automata that read code points. An edge either reads a code point that its matcher accepts or
reads nothing. State 0 is the start and state 1 accepts. Running the automaton over a text keeps the
set of states it can be in and remembers the last place where it could accept, which is the end of
the longest match.
-/
namespace GrammarKit

structure Edge where
  /-- What the edge reads; nothing if there is no matcher. -/
  matcher : Option Matcher
  target : Nat
deriving DecidableEq

structure Automaton where
  name : Text
  /-- The edges of each state. -/
  edges : Array (List Edge)
deriving DecidableEq

namespace Automaton

def start : Nat := 0

def accept : Nat := 1

def size (a : Automaton) : Nat := a.edges.size

def edgesOf (a : Automaton) (state : Nat) : List Edge := (a.edges[state]?).getD []

def silentTargets (a : Automaton) (state : Nat) : List Nat :=
  (a.edgesOf state).filterMap fun e => if e.matcher.isNone then some e.target else none

theorem silentTargets_eq_nil (a : Automaton) (state : Nat) (h : state ∉ List.range a.size) :
    a.silentTargets state = [] := by
  have hsize : a.edges.size ≤ state := by simpa [size] using h
  simp [silentTargets, edgesOf, Array.getElem?_eq_none hsize]

def silentGraph (a : Automaton) : Graph Nat where
  next := a.silentTargets
  points := List.range a.size
  next_eq_nil := a.silentTargets_eq_nil

def closure (a : Automaton) (states : List Nat) : List Nat := a.silentGraph.reach states

def targets (a : Automaton) (state : Nat) (c : CodePoint) : List Nat :=
  (a.edgesOf state).filterMap fun e =>
    match e.matcher with
    | some m => if m.accepts c then some e.target else none
    | none => none

def step (a : Automaton) (states : List Nat) (c : CodePoint) : List Nat :=
  a.closure (states.flatMap fun state => a.targets state c)

/-- Goes on from a set of states at an offset, where `longest` is the last end of a match so
far. -/
def longestFrom (a : Automaton) (states : List Nat) (offset : Nat) (longest : Option Nat)
    (t : Text) : Option Nat :=
  if states.isEmpty then longest
  else
    match _h : t.codePoint? with
    | none => longest
    | some (c, width) =>
      let states := a.step states c
      let longest := if accept ∈ states then some (offset + width) else longest
      a.longestFrom states (offset + width) longest (t.drop width)
termination_by t.length
decreasing_by
  have := Text.codePoint?_width _h
  simp only [List.length_drop]
  omega

def longestAt (a : Automaton) (offset : Nat) (t : Text) : Option Nat :=
  let states := a.closure [start]
  a.longestFrom states offset (if accept ∈ states then some offset else none) t

/-- The end of the longest match that starts at an offset. Where there is nothing ahead only the
empty match is possible. -/
def longestMatch (a : Automaton) (t : Text) (offset : Int) : Option Int :=
  (a.longestAt 0 (t.ahead offset)).map fun width => offset + width

def renderEdge (state : Nat) (e : Edge) : Except Fault Text := do
  let label ← match e.matcher with
    | some m => m.render
    | none => .ok (Text.ofString "ϵ")
  .ok (Text.ofString "  " ++ Text.ofNat state ++ Text.ofString " -" ++ label ++
    Text.ofString "-> " ++ Text.ofNat e.target)

def render (a : Automaton) : Except Fault Text := do
  let lines ← a.edges.toList.zipIdx.mapM fun (edges, state) => edges.mapM (renderEdge state)
  let heading := a.name ++ Text.ofString ": start=" ++ Text.ofNat start ++
    Text.ofString " accept=" ++ Text.ofNat accept
  .ok (Text.join [unit '\n'] (heading :: lines.flatten))

end Automaton

end GrammarKit
