import GrammarKit.Proofs.Effect
import GrammarKit.Proofs.Source.Respan
import GrammarKit.Source.Reader

/-!
A source that stands behind other text. Scanning and reading it there gives what they give where the
source stands alone, with all spans moved, and an error is moved in the same way.
-/
namespace GrammarKit

def Lexeme.shift (offset : Int) (l : Lexeme) : Lexeme := { l with span := l.span.shift offset }

/-- An error that has no source of its own moves with its span. -/
theorem GrammarError.shiftBy_eq {e : GrammarError} (h : e.source = none) (offset : Int) :
    e.shiftBy offset = { e with span := e.span.map (·.shift offset) } := by
  obtain ⟨problem, rule, span, source⟩ := e
  cases h
  cases span with
  | none => rfl
  | some span =>
    unfold shiftBy
    by_cases hzero : offset = 0
    · simp [hzero, Span.shift]
    · simp [hzero]

theorem GrammarError.shiftBy_same (e : GrammarError) (offset : Int) :
    (e.shiftBy offset).problem = e.problem ∧ (e.shiftBy offset).rule = e.rule := by
  unfold shiftBy
  split
  · exact ⟨rfl, rfl⟩
  · split
    · exact ⟨rfl, rfl⟩
    · exact ⟨rfl, rfl⟩

def moved {α : Type} (offset : Int) (move : α → α) : Except GrammarError α → Except GrammarError α
  | .ok a => .ok (move a)
  | .error e => .error (e.shiftBy offset)

theorem moved_bind {α β : Type} {offset : Int} {move : α → α} {move' : β → β}
    {f g : α → Except GrammarError β} (h : ∀ a, g (move a) = moved offset move' (f a))
    (x : Except GrammarError α) :
    moved offset move x >>= g = moved offset move' (x >>= f) := by
  cases x with
  | error e => rfl
  | ok a => exact h a

theorem Lexeme.scanFrom_shift (offset k : Nat) (t : Text) :
    scanFrom (offset + k) t = moved k (List.map (Lexeme.shift k)) (scanFrom offset t) := by
  fun_induction scanFrom offset t with
  | case1 offset =>
    rw [scanFrom]
    rfl
  | case2 offset u rest problem width hfront =>
    rw [scanFrom, hfront, moved, GrammarError.shiftBy_eq rfl]
    simp only [Option.map_some, Span.shift, Int.natCast_add]
    rw [Int.add_right_comm]
  | case3 offset u rest piece hfront ih =>
    rw [scanFrom, hfront]
    simp only
    rw [Nat.add_right_comm, ih]
    refine moved_bind (fun lexemes => ?_) _
    cases piece.lexeme with
    | none => rfl
    | some content =>
      simp only [moved, List.map_cons, Lexeme.shift, Span.shift, Int.natCast_add]
      rw [Int.add_right_comm]

namespace Source

theorem Singular.span_mapSpan (f : Span → Span) (x : Singular) :
    (x.mapSpan f).span = f x.span := by
  cases x <;> simp only [Singular.mapSpan, Singular.span]

theorem Body.mapSpan_eq_map (f : Span → Span) (items : Body) :
    Body.mapSpan f items = items.map (Item.mapSpan f) := by
  induction items with
  | nil => simp only [Body.mapSpan, List.map_nil]
  | cons i rest ih => simp only [Body.mapSpan, List.map_cons, ih]

theorem Item.span_mapSpan (f : Span → Span) (i : Item Singular) :
    (Item.mapSpan f i).span = f i.span := by
  cases i
  simp only [Item.mapSpan]

namespace Reader

def Context.shift (k : Nat) (ctx : Context) : Context :=
  { ctx with sourceLength := ctx.sourceLength + k }

/-- A part that was read, and what is left behind it, in a source that starts `k` units earlier. -/
def along {α : Type} (k : Nat) (move : α → α) (answer : α × List Lexeme) : α × List Lexeme :=
  (move answer.1, answer.2.map (Lexeme.shift k))

def later (k : Nat) (span : Span) : Span := span.shift k

section Moving

variable (k : Nat) (ctx : Context)

theorem expected_shift (what : Expectation) (rest : List Lexeme) :
    expected (ctx.shift k) what (rest.map (Lexeme.shift k)) =
      (expected ctx what rest).shiftBy k := by
  cases rest with
  | nil =>
    rw [expected, GrammarError.shiftBy_eq rfl]
    simp [expected, Span.empty, Span.shift, Context.shift]
  | cons l rest =>
    rw [expected, GrammarError.shiftBy_eq rfl]
    rfl

theorem accept_shift (kind : Lexeme.Kind) (rest : List Lexeme) :
    accept kind (rest.map (Lexeme.shift k)) =
      ((accept kind rest).1.map (Lexeme.shift k), (accept kind rest).2.map (Lexeme.shift k)) := by
  cases rest with
  | nil => rfl
  | cons l rest =>
    simp only [List.map_cons, accept]
    by_cases hkind : l.kind = kind
    · rw [if_pos hkind, if_pos (show (l.shift k).kind = kind from hkind)]
      rfl
    · rw [if_neg hkind, if_neg (show ¬(l.shift k).kind = kind from hkind)]
      rfl

theorem demand_shift (kind : Lexeme.Kind) (what : Expectation) (rest : List Lexeme) :
    demand (ctx.shift k) kind what (rest.map (Lexeme.shift k)) =
      moved k (along k (Lexeme.shift k)) (demand ctx kind what rest) := by
  unfold demand
  rw [accept_shift]
  obtain ⟨found | l, after⟩ := accept kind rest
  · show Except.error (expected _ _ _) = _
    rw [expected_shift]
    rfl
  · rfl

theorem quantified_shift (inner : Singular) (rest : List Lexeme) :
    quantified (inner.mapSpan (later k)) (rest.map (Lexeme.shift k)) =
      along k (Item.mapSpan (later k)) (quantified inner rest) := by
  unfold quantified
  rw [Singular.span_mapSpan]
  cases rest with
  | nil => simp only [List.map_nil, along, Item.mapSpan]
  | cons l more =>
    simp only [List.map_cons]
    rw [show (l.shift k).kind = l.kind from rfl]
    cases quantifier? l.kind with
    | none => simp only [along, Item.mapSpan, List.map_cons]
    | some quantifier =>
      simp only [along, Item.mapSpan]
      rfl

theorem alternativeName_shift (named : Bool) (rest : List Lexeme) :
    alternativeName (ctx.shift k) named (rest.map (Lexeme.shift k)) =
      moved k (along k (Option.map (Lexeme.shift k))) (alternativeName ctx named rest) := by
  unfold alternativeName
  rw [accept_shift]
  obtain ⟨found | arrow, after⟩ := accept .arrow rest
  · rfl
  · cases named with
    | false =>
      show Except.error _ = _
      simp only [Bool.false_eq_true, if_false, moved]
      rw [GrammarError.shiftBy_eq rfl]
      rfl
    | true =>
      simp only [Option.map_some, if_true, demand_shift]
      refine moved_bind (fun (name, last) => ?_) _
      rfl

theorem assemble_shift (doc name : Option Lexeme) (first : Item Singular) (others : Body) :
    assemble (doc.map (Lexeme.shift k)) (Item.mapSpan (later k) first)
      (Body.mapSpan (later k) others) (name.map (Lexeme.shift k)) =
        Alternative.mapSpan (later k) (assemble doc first others name) := by
  have hlast : (Body.mapSpan (later k) others).getLast?.map Item.span =
      (others.getLast?.map Item.span).map (later k) := by
    rw [Body.mapSpan_eq_map, List.getLast?_map, Option.map_map, Option.map_map]
    congr 1
    funext i
    exact Item.span_mapSpan _ i
  have hname : (name.map (Lexeme.shift k)).map Lexeme.span =
      (name.map Lexeme.span).map (later k) := by
    cases name <;> rfl
  have hdoc : (doc.map (Lexeme.shift k)).map Lexeme.span =
      (doc.map Lexeme.span).map (later k) := by
    cases doc <;> rfl
  unfold assemble
  simp only [hlast, hname, hdoc, Item.span_mapSpan, Alternative.mapSpan, Body.mapSpan]
  congr 1
  · cases doc <;> rfl
  · cases name <;> rfl
  · rw [Option.getD_map, Option.getD_map, Option.getD_map]
    rfl

mutual

/-- What is read in a longer source is what is read in the source alone, moved. -/
theorem alternation_shift (k : Nat) (ctx : Context) (named : Bool) :
    ∀ (n : Nat) (rest : List Lexeme),
    alternation (ctx.shift k) named n (rest.map (Lexeme.shift k)) =
      moved k (along k (Alternation.mapSpan (later k))) (alternation ctx named n rest)
  | 0, rest => by
    simp only [alternation, expected_shift, moved]
  | n + 1, rest => by
    simp only [alternation, alternative_shift k ctx named n rest]
    refine moved_bind (fun (a, middle) => ?_) _
    simp only [along, accept_shift]
    obtain ⟨found | bar, after⟩ := accept .bar middle
    · simp only [Option.map_none, moved, along, Alternation.mapSpan]
    · simp only [Option.map_some, alternation_shift k ctx named n after]
      refine moved_bind (fun (others, last) => ?_) _
      simp only [along, moved, Alternation.mapSpan]

theorem alternative_shift (k : Nat) (ctx : Context) (named : Bool) :
    ∀ (n : Nat) (rest : List Lexeme),
    alternative (ctx.shift k) named n (rest.map (Lexeme.shift k)) =
      moved k (along k (Alternative.mapSpan (later k))) (alternative ctx named n rest)
  | 0, rest => by
    simp only [alternative, expected_shift, moved]
  | n + 1, rest => by
    simp only [alternative, accept_shift]
    rw [body_shift k ctx n]
    refine moved_bind (fun (items, middle) => ?_) _
    cases items with
    | nil => simp only [along, Body.mapSpan, expected_shift, moved]
    | cons first others =>
      simp only [along, Body.mapSpan, alternativeName_shift]
      refine moved_bind (fun (name, last) => ?_) _
      simp only [along, moved, assemble_shift]

theorem body_shift (k : Nat) (ctx : Context) : ∀ (n : Nat) (rest : List Lexeme),
    body (ctx.shift k) n (rest.map (Lexeme.shift k)) =
      moved k (along k (Body.mapSpan (later k))) (body ctx n rest)
  | 0, rest => by
    simp only [body, expected_shift, moved]
  | n + 1, [] => by
    simp only [List.map_nil, body, moved, along, Body.mapSpan]
  | n + 1, l :: rest => by
    have hsingular := singular_shift k ctx n (l :: rest)
    simp only [List.map_cons] at hsingular ⊢
    simp only [body]
    rw [show (l.shift k).kind = l.kind from rfl]
    cases startsSingular l.kind with
    | false => simp only [Bool.false_eq_true, if_false, moved, along, Body.mapSpan, List.map_cons]
    | true =>
      simp only [if_true, hsingular]
      refine moved_bind (fun (inner, middle) => ?_) _
      simp only [along, quantified_shift, body_shift k ctx n]
      refine moved_bind (fun (others, last) => ?_) _
      simp only [along, moved, Body.mapSpan]

theorem singular_shift (k : Nat) (ctx : Context) : ∀ (n : Nat) (rest : List Lexeme),
    singular (ctx.shift k) n (rest.map (Lexeme.shift k)) =
      moved k (along k (Singular.mapSpan (later k))) (singular ctx n rest)
  | 0, rest => by
    simp only [singular, expected_shift, moved]
  | n + 1, [] => by
    have hexpected := expected_shift k ctx .pattern []
    simp only [List.map_nil] at hexpected ⊢
    simp only [singular, moved, hexpected]
  | n + 1, l :: rest => by
    have hexpected := expected_shift k ctx .pattern (l :: rest)
    simp only [List.map_cons] at hexpected ⊢
    simp only [singular]
    rw [show (l.shift k).kind = l.kind from rfl]
    split
    · rw [alternation_shift k ctx false n rest]
      refine moved_bind (fun (alternatives, middle) => ?_) _
      simp only [along, demand_shift]
      refine moved_bind (fun (closing, last) => ?_) _
      simp only [along, moved, Singular.mapSpan]
      rfl
    · simp only [moved, along, Singular.mapSpan]
      rfl
    · simp only [moved, along, Singular.mapSpan]
      rfl
    · simp only [moved, along, Singular.mapSpan]
      rfl
    · simp only [moved, along, Singular.mapSpan]
      rfl
    · simp only [moved, hexpected]

end

theorem definitionKind_shift (rest : List Lexeme) :
    definitionKind (ctx.shift k) (rest.map (Lexeme.shift k)) =
      moved k (along k id) (definitionKind ctx rest) := by
  unfold definitionKind
  rw [accept_shift]
  obtain ⟨found | sign, after⟩ := accept .production rest
  · simp only [Option.map_none, accept_shift]
    obtain ⟨found | sign, after⟩ := accept .tokenRule after
    · simp only [Option.map_none, expected_shift, moved]
    · rfl
  · rfl

theorem definition_shift (sourceLength : Nat) (rest : List Lexeme) :
    definition (sourceLength + k) (rest.map (Lexeme.shift k)) =
      moved k (along k (·.shift k)) (definition sourceLength rest) := by
  have hcontext : ∀ rule, (⟨rule, sourceLength + k⟩ : Context) =
      Context.shift k ⟨rule, sourceLength⟩ := fun _ => rfl
  have hsteps : ∀ rest : List Lexeme, steps (rest.map (Lexeme.shift k)) = steps rest := by
    intro rest
    rw [steps, List.length_map, steps]
  simp only [definition, accept_shift, hcontext, demand_shift]
  refine moved_bind (fun (name, middle) => ?_) _
  simp only [along, Lexeme.shift, definitionKind_shift]
  refine moved_bind (fun (kind, middle) => ?_) _
  simp only [along, hsteps, alternation_shift, id]
  refine moved_bind (fun (alternatives, last) => ?_) _
  simp only [along, demand_shift]
  refine moved_bind (fun (semicolon, last) => ?_) _
  simp only [along, moved, Definition.shift, Definition.mapSpan]
  cases (accept .doc rest).1 <;> rfl

theorem definitions_shift (sourceLength : Nat) : ∀ (limit : Nat) (rest : List Lexeme),
    definitions (sourceLength + k) limit (rest.map (Lexeme.shift k)) =
      moved k (List.map (·.shift k)) (definitions sourceLength limit rest) := by
  intro limit
  induction limit with
  | zero => exact fun _ => rfl
  | succ n ih =>
    intro rest
    cases rest with
    | nil => rfl
    | cons l rest =>
      have hread := definition_shift k sourceLength (l :: rest)
      simp only [List.map_cons] at hread ⊢
      simp only [definitions, List.map_eq_nil_iff, hread]
      rw [show (l.shift k).kind = l.kind from rfl]
      by_cases hlast : l.kind = .doc ∧ rest = []
      · rw [if_pos hlast, if_pos hlast]
        rfl
      · rw [if_neg hlast, if_neg hlast]
        refine moved_bind (fun (first, after) => ?_) _
        simp only [along, ih]
        refine moved_bind (fun others => ?_) _
        simp only [moved, List.map_cons]

end Moving

end Reader

end Source

end GrammarKit
