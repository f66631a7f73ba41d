import GrammarKit.Palette
import GrammarKit.Parse.Input

/-!
What happens in the course of a parse, event by event. Failed attempts stay on record when the
parser goes back to another alternative. The farthest of them are what an error reports, and they
are kept apart so that they are at hand when the parse ends.
-/
namespace GrammarKit

structure Frame where
  rule : Text
  cursor : Nat
deriving DecidableEq

inductive Event where
  /-- A rule is tried, inside of the calls that are not finished. -/
  | entered (frame : Frame) (active : List Frame)
  /-- An alternative of a rule matched. -/
  | accepted (frame : Frame) (tag : Text) (depth : Nat)
  /-- No alternative of a rule matched. -/
  | rejected (frame : Frame) (depth : Nat)
  /-- A token matched, and the parse goes on at `stop`. -/
  | tokenTaken (name : Text) (cursor stop : Nat)
  | tokenMissed (name : Text) (cursor : Nat)
  | groupTried (cursor : Nat)
  | iterationTried (cursor : Nat)
deriving DecidableEq

/-- The events of a parse, the last one first. -/
abbrev Trace := List Event

namespace Event

def failure? : Event → Option (Nat × Text)
  | rejected frame _ => some (frame.cursor, frame.rule)
  | tokenMissed name cursor => some (cursor, name)
  | _ => none

def bars (n : Nat) : Text := (List.replicate n (Text.ofString "  |")).flatten

def render? (palette : Palette) (input : Input) : Event → Option Text
  | entered frame active =>
    some (bars (active.length + 1) ++ unit ' ' :: frame.rule ++ Text.ofString " @ " ++
      Text.ofInt (input.position frame.cursor))
  | accepted frame tag depth =>
    some (bars (depth + 2) ++ unit ' ' :: palette.paint .green (Text.ofString "✓") ++
      unit ' ' :: frame.rule ++ unit ':' :: tag)
  | rejected frame depth => some (bars (depth + 2) ++ Text.ofString " failed " ++ frame.rule)
  | _ => none

end Event

namespace Trace

def failures (trace : Trace) : List (Nat × Text) := (trace.filterMap Event.failure?).reverse

def log (palette : Palette) (input : Input) (trace : Trace) : List Text :=
  trace.reverse.filterMap (Event.render? palette input)

end Trace

/-- The greatest cursor at which an attempt failed, and what was tried there in vain: each name
once, in the order of the first attempt. -/
structure Farthest where
  cursor : Nat
  names : List Text
deriving DecidableEq

def Farthest.note (farthest : Option Farthest) (cursor : Nat) (name : Text) : Option Farthest :=
  match farthest with
  | none => some ⟨cursor, [name]⟩
  | some f =>
    if f.cursor < cursor then some ⟨cursor, [name]⟩
    else if f.cursor = cursor ∧ name ∉ f.names then some { f with names := f.names ++ [name] }
    else some f

structure Progress where
  trace : Trace
  farthest : Option Farthest

namespace Progress

def initial : Progress := ⟨[], none⟩

def record (e : Event) (p : Progress) : Progress where
  trace := e :: p.trace
  farthest :=
    match e.failure? with
    | some (cursor, name) => Farthest.note p.farthest cursor name
    | none => p.farthest

end Progress

end GrammarKit
