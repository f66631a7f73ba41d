import GrammarKit.Error.Fault

/-!
A journal hands each message to its listeners, and then prints it or appends it to a file if the
settings ask for that. Printing goes before the file.
-/
namespace GrammarKit

inductive Remark where
  | nothing
  | truth (b : Bool)
  | number (i : Int)
  | text (t : Text)
  | list (parts : List Remark)
deriving Inhabited

namespace Remark

mutual

def render : Remark → Text
  | .nothing => []
  | .truth b => Text.ofString (if b then "true" else "false")
  | .number i => Text.ofInt i
  | .text t => t
  | .list parts => Text.join [unit ','] (renderAll parts)

def renderAll : List Remark → List Text
  | [] => []
  | r :: rest => render r :: renderAll rest

end

def line (parts : List Remark) : Text := Text.join [unit ' '] (renderAll parts)

end Remark

structure Listener where
  subscribed : Bool := true
  heard : List (List Remark) := []

structure Journal where
  /-- Whether messages are printed. -/
  printing : Bool := false
  /-- Whether messages go to a file. -/
  filing : Bool := false
  /-- All listeners there ever were, in the order in which they came. -/
  listeners : List Listener := []
  printed : List Text := []
  /-- What is in the file, once something was written. -/
  file : Option Text := none

namespace Journal

def isSet (value : Option Text) : Bool := value.any fun t => !t.isEmpty

def setPrinting (j : Journal) (value : Option Text) : Journal := { j with printing := isSet value }

def setFiling (j : Journal) (value : Option Text) : Journal := { j with filing := isSet value }

def subscribe (j : Journal) : Journal := { j with listeners := j.listeners ++ [{}] }

def unsubscribe (j : Journal) (n : Nat) : Journal :=
  { j with listeners := j.listeners.modify n fun l => { l with subscribed := false } }

def deliver (j : Journal) (message : List Remark) : Journal :=
  { j with listeners := j.listeners.map fun l =>
      if l.subscribed then { l with heard := l.heard ++ [message] } else l }

def log (j : Journal) (message : List Remark) : Journal :=
  let j := j.deliver message
  let line := Remark.line message
  if j.printing then { j with printed := j.printed ++ [line] }
  else if j.filing then
    { j with file := some (j.file.getD [] ++ line.repair ++ [unit '\n']) }
  else j

/-- The lines that a listener of its own hears while an action logs messages. The action may then
fail in its own words; the lines are heard all the same. -/
structure Capture where
  outcome : Except Fault Unit
  lines : List Text

def capture (j : Journal) (messages : List (List Remark)) (failure : Option Text) :
    Capture × Journal :=
  let outcome := match failure with
    | some t => .error (.raised t)
    | none => .ok ()
  (⟨outcome, messages.map Remark.line⟩, messages.foldl log j)

end Journal

end GrammarKit
