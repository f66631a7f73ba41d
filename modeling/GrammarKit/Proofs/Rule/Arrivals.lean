import GrammarKit.Proofs.Rule.Drafts
import GrammarKit.Proofs.Source.Wording

/-!
What a row of definitions comes to, read off the definitions alone. A definition arrives when it is
reached, and behind it arrive the patterns of a production that have not arrived before; the place
of an arrival in this one row is the index of the rule it starts. The alternatives of a rule are
compiled without any state: in a production a symbol takes the place of each pattern, and in a token
rule patterns stay where they are.
-/
namespace GrammarKit

namespace Source

mutual

def Singular.patterns : Singular → List Text
  | .group alternatives _ => Alternation.patterns alternatives
  | .symbol .. => []
  | .literal text _ => [text]
  | .charset text _ => [text]
  | .escape text _ => [text]

def Alternation.patterns : List (Alternative (Item Singular)) → List Text
  | [] => []
  | a :: rest => Alternative.patterns a ++ Alternation.patterns rest

def Alternative.patterns : Alternative (Item Singular) → List Text
  | ⟨_, _, items, _⟩ => Body.patterns items

def Body.patterns : List (Item Singular) → List Text
  | [] => []
  | i :: rest => Item.patterns i ++ Body.patterns rest

def Item.patterns : Item Singular → List Text
  | ⟨inner, _, _⟩ => Singular.patterns inner

end

namespace Definition

/-- The patterns that a definition moves out of its alternatives: those of a production. -/
def moved (d : Definition) : List Text :=
  match d.kind with
  | .production => Alternation.patterns d.alternatives
  | .token => []

def doc? (d : Definition) : Option Text := d.doc.filter fun t => !t.isEmpty

end Definition

def definitionsOf (name : Text) (ds : List Definition) : List Definition :=
  ds.filter fun d => decide (d.name = name)

theorem definitionsOf_append_self {name : Text} (ds : List Definition) {d : Definition}
    (h : d.name = name) : definitionsOf name (ds ++ [d]) = definitionsOf name ds ++ [d] := by
  simp [definitionsOf, List.filter_append, h]

theorem definitionsOf_append_other {name : Text} (ds : List Definition) {d : Definition}
    (h : d.name ≠ name) : definitionsOf name (ds ++ [d]) = definitionsOf name ds := by
  simp [definitionsOf, List.filter_append, h]

theorem definitionsOf_eq_nil {name : Text} {ds : List Definition} (h : ∀ d ∈ ds, d.name ≠ name) :
    definitionsOf name ds = [] := by
  simpa [definitionsOf] using h

end Source

/-- What stands for a pattern in a rule of a kind: in a production a symbol with its text. -/
def Singular.placed (kind : RuleKind) (text : Text) (span : Span) (pattern : Singular) : Singular :=
  if kind = .production then .symbol text span else pattern

def Singular.source? : Singular → Option Text
  | .literal source _ _ => some source
  | .charset source _ _ => some source
  | _ => none

mutual

def Source.Singular.compiled (owner : Text) (kind : RuleKind) :
    Source.Singular → Except GrammarError GrammarKit.Singular
  | .group alternatives _ => do
    let alternatives ← Source.Alternation.compiled owner kind alternatives
    .ok (.group alternatives)
  | .symbol name span => .ok (.symbol name span)
  | .literal text span => do
    let matchers ← Pattern.literal ⟨text, span, some owner⟩
    .ok (.placed kind text span (.literal text matchers span))
  | .charset text span => do
    let matcher ← Pattern.charset ⟨text, span, some owner⟩
    .ok (.placed kind text span (.charset text matcher span))
  | .escape text span => do
    let matcher ← Pattern.escape ⟨text, span, some owner⟩
    .ok (.placed kind text span (.literal text [matcher] span))

def Source.Alternation.compiled (owner : Text) (kind : RuleKind) :
    List (Alternative (Source.Item Source.Singular)) → Except GrammarError GrammarKit.Alternation
  | [] => .ok []
  | a :: rest => do
    let first ← Source.Alternative.compiled owner kind a
    let others ← Source.Alternation.compiled owner kind rest
    .ok (first :: others)

def Source.Alternative.compiled (owner : Text) (kind : RuleKind) :
    Alternative (Source.Item Source.Singular) →
      Except GrammarError (Alternative (GrammarKit.Item GrammarKit.Singular))
  | ⟨doc, name, items, span⟩ => do
    let items ← Source.Body.compiled owner kind items
    .ok ⟨doc, name, items, span⟩

def Source.Body.compiled (owner : Text) (kind : RuleKind) :
    List (Source.Item Source.Singular) → Except GrammarError GrammarKit.Body
  | [] => .ok []
  | i :: rest => do
    let first ← Source.Item.compiled owner kind i
    let others ← Source.Body.compiled owner kind rest
    .ok (first :: others)

def Source.Item.compiled (owner : Text) (kind : RuleKind) :
    Source.Item Source.Singular → Except GrammarError (GrammarKit.Item GrammarKit.Singular)
  | ⟨inner, quantifier, _⟩ => do
    let inner ← Source.Singular.compiled owner kind inner
    .ok ⟨inner, quantifier⟩

end

theorem Source.Alternation.compiled_append {owner : Text} {kind : RuleKind}
    {a : Alternative (Source.Item Source.Singular)}
    {b : Alternative (GrammarKit.Item GrammarKit.Singular)}
    (ha : Source.Alternative.compiled owner kind a = .ok b) :
    ∀ {first : Source.Alternation} {others : GrammarKit.Alternation},
      Source.Alternation.compiled owner kind first = .ok others →
        Source.Alternation.compiled owner kind (first ++ [a]) = .ok (others ++ [b]) := by
  intro first
  induction first with
  | nil =>
    intro others h
    simp only [compiled] at h
    cases h
    simp only [List.nil_append, compiled, ha]
    rfl
  | cons c rest ih =>
    intro others h
    simp only [compiled] at h
    obtain ⟨x, hx, h⟩ := exists_of_bind_eq_ok h
    obtain ⟨xs, hxs, h⟩ := exists_of_bind_eq_ok h
    cases h
    simp only [List.cons_append, compiled, hx, ih hxs]
    rfl

/-- A rule arrives with its first definition, or as a pattern that is moved out of a production. -/
inductive Arrival where
  | definition (name : Text)
  | pattern (source : Text)
deriving DecidableEq

namespace Arrival

def lift (before : List Arrival) (source : Text) : List Arrival :=
  if pattern source ∈ before then before else before ++ [pattern source]

/-- A definition arrives, and behind it the patterns it moves out. -/
def reach (before : List Arrival) (d : Source.Definition) : List Arrival :=
  d.moved.foldl lift (before ++ [definition d.name])

def sequence (ds : List Source.Definition) : List Arrival := ds.foldl reach []

theorem sequence_append (ds : List Source.Definition) (d : Source.Definition) :
    sequence (ds ++ [d]) = reach (sequence ds) d := by
  simp [sequence, List.foldl_append]

def liftAll (kind : RuleKind) (before : List Arrival) (sources : List Text) : List Arrival :=
  if kind = .production then sources.foldl lift before else before

theorem liftAll_nil (kind : RuleKind) (before : List Arrival) :
    liftAll kind before [] = before := by
  unfold liftAll
  split
  · rfl
  · rfl

theorem liftAll_append (kind : RuleKind) (before : List Arrival) (first second : List Text) :
    liftAll kind before (first ++ second) = liftAll kind (liftAll kind before first) second := by
  unfold liftAll
  split
  · exact List.foldl_append
  · rfl

theorem reach_eq {whitespaceName : Text} {d : Source.Definition} {kind : RuleKind}
    (h : Workbench.kindOf whitespaceName d = .ok kind) (before : List Arrival) :
    reach before d = liftAll kind (before ++ [definition d.name])
      (Source.Alternation.patterns d.alternatives) := by
  unfold Workbench.kindOf at h
  unfold reach Source.Definition.moved liftAll
  cases hkind : d.kind with
  | production =>
    rw [hkind] at h
    simp only at h
    split at h
    · cases h
    · cases h
      rfl
  | token =>
    rw [hkind] at h
    simp only at h
    split at h
    · cases h
      rfl
    · cases h
      rfl

end Arrival

end GrammarKit
