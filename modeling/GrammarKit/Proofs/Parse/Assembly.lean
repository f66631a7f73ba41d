import GrammarKit.Proofs.Parse.Soundness

/-!
How trees are put together in the course of a run. The record of a run only grows, and what was
found on the way is found together with the record at that time: tokens, white space, parts one
after the other, and nodes, each of which is what one call of its rule came to. A property of trees,
cursors and records that is kept in these ways holds of whatever a part of the evaluator comes to,
from every state of the run and whatever rules are active.
-/
namespace GrammarKit

namespace Attempt

variable {α β : Type} {before : Progress} {post : Trace → α → Prop}

/-- From a state of a run on the record only grows, and `post` holds of the record and of the answer
if there is one. -/
def Grows (before : Progress) (x : Attempt α) (post : Trace → α → Prop) : Prop :=
  Ensures (fun progress => progress = before) x
    (fun a after => before.trace <:+ after.trace ∧ post after.trace a) fun _ _ => True

namespace Grows

theorem answer {x : Attempt α} (h : Grows before x post) {a : α} {after : Progress}
    (hrun : x.run.run before = (.ok a, after)) :
    before.trace <:+ after.trace ∧ post after.trace a := Ensures.answer h rfl hrun

theorem of_answer {x : Attempt α} (h : ∀ a after, x.run.run before = (.ok a, after) →
    before.trace <:+ after.trace ∧ post after.trace a) : Grows before x post := by
  rintro _ rfl
  generalize hrun : x.run.run _ = run
  obtain ⟨halt | a, after⟩ := run
  · trivial
  · exact h a after hrun

theorem imp {x : Attempt α} {post' : Trace → α → Prop} (h : Grows before x post)
    (hpost : ∀ trace a, post trace a → post' trace a) : Grows before x post' :=
  Ensures.imp h (fun _ h => h) (fun a _ h => ⟨h.1, hpost _ a h.2⟩) (fun _ _ h => h)

theorem of_pure {a : α} (h : post before.trace a) : Grows before (pure a) post := by
  apply Ensures.of_pure
  rintro _ rfl
  exact ⟨List.suffix_rfl, h⟩

theorem of_throw (halt : Halt) : Grows before (throw halt : Attempt α) post :=
  Ensures.of_throw fun _ _ => trivial

theorem bind {x : Attempt β} {f : β → Attempt α} {middle : Trace → β → Prop}
    (hx : Grows before x middle) (hf : ∀ b progress, before.trace <:+ progress.trace →
      middle progress.trace b → Grows progress (f b) post) : Grows before (x >>= f) post := by
  refine Ensures.bind hx fun b => ?_
  intro progress hprogress
  have hrest := hf b progress hprogress.1 hprogress.2
  exact Ensures.imp hrest (fun _ h => h) (fun _ _ h => ⟨hprogress.1.trans h.1, h.2⟩)
    (fun _ _ h => h) progress rfl

theorem record_bind {e : Event} {f : Unit → Attempt α} (h : Grows (before.record e) (f ()) post) :
    Grows before (record e >>= f) post := by
  have hstep : before.trace <:+ (before.record e).trace := List.suffix_cons e before.trace
  apply of_answer
  intro a after hrun
  have hrest := h.answer hrun
  exact ⟨hstep.trans hrest.1, hrest.2⟩

theorem ofFault_bind {x : Except Fault β} {f : β → Attempt α}
    (h : ∀ b, x = .ok b → Grows before (f b) post) : Grows before (ofFault x >>= f) post := by
  cases hx : x with
  | ok b => exact ensures_ofFault_bind rfl (h b hx)
  | error fault => exact of_throw (.fault fault)

end Grows

end Attempt

/-- A match has a property that takes in the record of the run. -/
def Outcome.Has (P : Trace → Nat → Nat → List Tree → Prop) (cursor : Nat) (trace : Trace)
    (o : Outcome) : Prop := ∀ m, o = some m → P trace cursor m.stop m.children

namespace Outcome

variable {P : Trace → Nat → Nat → List Tree → Prop} {cursor : Nat} {trace : Trace}

theorem has_none : Has P cursor trace none := by
  intro m hm
  cases hm

theorem has_some {m : Match} (h : P trace cursor m.stop m.children) :
    Has P cursor trace (some m) := by
  rintro _ ⟨⟩
  exact h

end Outcome

namespace Session

open Attempt

/-- A call of a rule in the course of a run: it was entered while `active` calls were not finished,
and it came to `m`. -/
structure Calls (s : Session) (limit : Nat) (active : List Frame) (frame : Frame)
    (before after : Progress) (m : Match) : Prop where
  run : (s.rule limit active frame.rule frame.cursor).run.run before = (.ok (some m), after)
  entered : .entered frame active :: before.trace <:+ after.trace

/-- A property of the trees between two cursors and the record so far that is kept where trees are
put together. -/
structure Assembles (s : Session) (P : Trace → Nat → Nat → List Tree → Prop) : Prop where
  mono : ∀ {trace trace' cursor stop trees}, trace <:+ trace' → P trace cursor stop trees →
    P trace' cursor stop trees
  nothing : ∀ trace cursor, P trace cursor cursor []
  skip : ∀ {trace cursor stop}, s.skip cursor = .ok stop → P trace cursor stop []
  token : ∀ {trace name cursor token stop}, s.token? name cursor = .ok (some (token, stop)) →
    P trace cursor stop [.token token]
  append : ∀ {trace cursor middle stop first rest}, P trace cursor middle first →
    P trace middle stop rest → P trace cursor stop (first ++ rest)
  node : ∀ {limit active r cursor index before after m},
    s.Calls limit active ⟨r.name, cursor⟩ before after ⟨m.stop, [s.node r cursor index m]⟩ →
    P after.trace cursor m.stop m.children →
    P after.trace cursor m.stop [s.node r cursor index m]

variable {s : Session} {P : Trace → Nat → Nat → List Tree → Prop}

/-- White space after a match adds no tree. -/
theorem Assembles.settled (hP : s.Assembles P) {trace : Trace} {cursor middle stop : Nat}
    {trees : List Tree} (h : P trace cursor middle trees) (hskip : s.skip middle = .ok stop) :
    P trace cursor stop trees := by
  have hall := hP.append h (hP.skip hskip)
  rwa [List.append_nil] at hall

theorem takeToken_assembles (hP : s.Assembles P) (name : Text) (cursor : Nat)
    (before : Progress) : Grows before (s.takeToken name cursor) (Outcome.Has P cursor) := by
  unfold takeToken
  apply Grows.ofFault_bind
  intro found htoken
  cases found with
  | none => exact Grows.record_bind (Grows.of_pure Outcome.has_none)
  | some found =>
    apply Grows.ofFault_bind
    intro stop hskip
    refine Grows.record_bind (Grows.of_pure (Outcome.has_some ?_))
    exact hP.settled (hP.token htoken) hskip

theorem settle_assembles (hP : s.Assembles P) {o : Outcome} {cursor : Nat} {before : Progress}
    (ho : o.Has P cursor before.trace) : Grows before (s.settle o) (Outcome.Has P cursor) := by
  cases o with
  | none => exact Grows.of_pure Outcome.has_none
  | some m =>
    apply Grows.ofFault_bind
    intro stop hskip
    exact Grows.of_pure (Outcome.has_some (hP.settled (ho m rfl) hskip))

def PartAssembles (P : Trace → Nat → Nat → List Tree → Prop) (part : Nat → Attempt Outcome) :
    Prop := ∀ cursor before, Grows before (part cursor) (Outcome.Has P cursor)

theorem takeAll_assembles (hP : s.Assembles P) {part : Nat → Attempt Outcome}
    (hpart : PartAssembles P part) (length cursor : Nat) (before : Progress) :
    Grows before (takeAll length part cursor)
      (fun trace r => P trace cursor r.2.stop r.2.children) := by
  induction hleft : length - cursor using Nat.strong_induction_on generalizing cursor before with
  | _ left ih =>
    unfold takeAll
    apply Grows.record_bind
    apply (hpart cursor _).bind
    intro o progress _ ho
    cases o with
    | none => exact Grows.of_pure (hP.nothing _ cursor)
    | some m =>
      have hfirst := ho m rfl
      by_cases hgo : cursor < m.stop ∧ cursor < length
      · simp only [if_pos hgo]
        apply (ih (length - m.stop) (by omega) m.stop progress rfl).bind
        intro r after hgrown hr
        exact Grows.of_pure (hP.append (hP.mono hgrown hfirst) hr)
      · simp only [if_neg hgo]
        exact Grows.of_pure hfirst

theorem quantified_assembles (hP : s.Assembles P) {part : Nat → Attempt Outcome}
    (hpart : PartAssembles P part) (quantifier : Quantifier) :
    PartAssembles P (s.quantified quantifier part) := by
  intro cursor before
  unfold quantified
  cases quantifier with
  | one => exact hpart cursor before
  | maybe =>
    apply (hpart cursor before).bind
    intro o progress _ ho
    cases o with
    | none => exact Grows.of_pure (Outcome.has_some (hP.nothing _ cursor))
    | some m => exact Grows.of_pure ho
  | any =>
    apply (takeAll_assembles hP hpart s.length cursor before).bind
    intro r progress _ hr
    exact Grows.of_pure (Outcome.has_some hr)
  | many =>
    apply (takeAll_assembles hP hpart s.length cursor before).bind
    intro r progress _ hr
    apply Grows.of_pure
    by_cases hcount : r.1 = 0
    · rw [if_pos hcount]
      exact Outcome.has_none
    · rw [if_neg hcount]
      exact Outcome.has_some hr

def CallsAssemble (P : Trace → Nat → Nat → List Tree → Prop)
    (call : Text → Nat → Attempt Outcome) : Prop := ∀ name, PartAssembles P (call name)

section Parts

variable {call : Text → Nat → Attempt Outcome}

mutual

/-- The matches of a part have the property if those of the rules it calls do. -/
theorem singular_assembles (hP : s.Assembles P) (hcall : CallsAssemble P call) :
    ∀ x : Singular, PartAssembles P (singular s call x)
  | .group alternatives, cursor, before => by
    simp only [singular]
    apply Grows.record_bind
    apply (alternation_assembles hP hcall alternatives cursor _).bind
    exact fun o progress _ ho => settle_assembles hP ho
  | .symbol name span, cursor, before => by
    simp only [singular]
    by_cases hproduction : s.rules.isProduction name = true
    · rw [if_pos hproduction]
      apply (hcall name cursor before).bind
      exact fun o progress _ ho => settle_assembles hP ho
    · rw [if_neg hproduction]
      exact takeToken_assembles hP name cursor before
  | .literal source matchers span, cursor, before => by
    simp only [singular]
    exact takeToken_assembles hP source cursor before
  | .charset source matcher span, cursor, before => by
    simp only [singular]
    exact takeToken_assembles hP source cursor before

theorem alternation_assembles (hP : s.Assembles P) (hcall : CallsAssemble P call) :
    ∀ alternatives : List (Alternative (Item Singular)),
      PartAssembles P (alternation s call alternatives)
  | [], cursor, before => by
    simp only [alternation]
    exact Grows.of_pure Outcome.has_none
  | a :: rest, cursor, before => by
    simp only [alternation]
    apply (alternative_assembles hP hcall a cursor before).bind
    intro o progress _ ho
    cases o with
    | none => exact alternation_assembles hP hcall rest cursor progress
    | some m => exact Grows.of_pure ho

theorem alternative_assembles (hP : s.Assembles P) (hcall : CallsAssemble P call) :
    ∀ a : Alternative (Item Singular), PartAssembles P (alternative s call a)
  | ⟨_, _, items, _⟩, cursor, before => by
    simp only [alternative]
    exact body_assembles hP hcall items cursor before

theorem body_assembles (hP : s.Assembles P) (hcall : CallsAssemble P call) :
    ∀ items : List (Item Singular), PartAssembles P (body s call items)
  | [], cursor, before => by
    simp only [body]
    exact Grows.of_pure (Outcome.has_some (hP.nothing _ cursor))
  | i :: rest, cursor, before => by
    simp only [body]
    apply (item_assembles hP hcall i cursor before).bind
    intro o progress _ ho
    cases o with
    | none => exact Grows.of_pure Outcome.has_none
    | some m =>
      have hfirst := ho m rfl
      apply (body_assembles hP hcall rest m.stop progress).bind
      intro o' after hgrown ho'
      cases o' with
      | none => exact Grows.of_pure Outcome.has_none
      | some n =>
        have hboth := hP.append (hP.mono hgrown hfirst) (ho' n rfl)
        exact Grows.of_pure (Outcome.has_some hboth)

theorem item_assembles (hP : s.Assembles P) (hcall : CallsAssemble P call) :
    ∀ i : Item Singular, PartAssembles P (item s call i)
  | ⟨inner, quantifier⟩, cursor, before => by
    simp only [item]
    exact quantified_assembles hP (singular_assembles hP hcall inner) quantifier cursor before

end

theorem choose_assembles (hP : s.Assembles P) (hcall : CallsAssemble P call)
    (alternatives : Alternation) (cursor : Nat) : ∀ (index : Nat) (before : Progress),
      Grows before (choose s call index alternatives cursor)
        (fun trace r => ∀ position m, r = some (position, m) →
          P trace cursor m.stop m.children) := by
  induction alternatives with
  | nil =>
    intro index before
    apply Grows.of_pure
    intro position m hm
    cases hm
  | cons a rest ih =>
    intro index before
    simp only [choose]
    apply (alternative_assembles hP hcall a cursor before).bind
    intro o progress _ ho
    cases o with
    | none => exact ih (index + 1) progress
    | some m =>
      apply Grows.of_pure
      rintro position _ ⟨⟩
      exact ho m rfl

/-- The call of a rule puts itself on record first, and what it comes to is a node over children
that have the property. -/
theorem expand_assembles (hP : s.Assembles P) (hcall : CallsAssemble P call) (active : List Frame)
    (r : Rule) (cursor : Nat) (before : Progress) :
    Grows before (s.expand call active r cursor) (fun trace o =>
      .entered ⟨r.name, cursor⟩ active :: before.trace <:+ trace ∧
      ∀ m, o = some m → ∃ index n, m = ⟨n.stop, [s.node r cursor index n]⟩ ∧
        P trace cursor n.stop n.children) := by
  apply Grows.record_bind
  apply (choose_assembles hP hcall r.alternatives cursor 0 _).bind
  intro o progress hgrown ho
  have hmore : ∀ e, progress.trace <:+ (progress.record e).trace := fun e => List.suffix_cons e _
  cases o with
  | none =>
    refine Grows.record_bind (Grows.of_pure ⟨hgrown.trans (hmore _), ?_⟩)
    intro m hm
    cases hm
  | some chosen =>
    refine Grows.record_bind (Grows.of_pure ⟨hgrown.trans (hmore _), ?_⟩)
    rintro _ ⟨⟩
    exact ⟨chosen.1, chosen.2, rfl, hP.mono (hmore _) (ho _ _ rfl)⟩

end Parts

/-- What a call of a rule comes to is one node of the rule that has the property, whatever calls are
active. -/
theorem rule_assembles_node (hP : s.Assembles P) (limit : Nat) :
    ∀ (active : List Frame) (name : Text) (cursor : Nat) (before : Progress),
      Grows before (s.rule limit active name cursor) (fun trace o => ∀ m, o = some m →
        P trace cursor m.stop m.children ∧
          ∃ tag children span, m.children = [.node name tag children span]) := by
  induction limit with
  | zero =>
    intro active name cursor before
    simp only [rule, enter]
    split
    · exact Grows.of_throw _
    · split
      · exact Grows.of_throw _
      · exact Grows.of_throw _
  | succ limit ih =>
    intro active name cursor before
    apply Grows.of_answer
    intro o after hrun
    have hsteps := hrun
    simp only [rule, enter] at hsteps
    split at hsteps
    · cases hsteps
    · next r hget =>
      obtain rfl : r.name = name := RuleSet.get?_name hget
      split at hsteps
      · cases hsteps
      · have hcalls : CallsAssemble P (s.rule limit (⟨r.name, cursor⟩ :: active)) :=
          fun name cursor before => (ih _ name cursor before).imp fun _ _ h m hm => (h m hm).1
        obtain ⟨hgrown, hentered, hmatch⟩ :=
          (expand_assembles hP hcalls active r cursor before).answer hsteps
        refine ⟨hgrown, ?_⟩
        rintro m rfl
        obtain ⟨index, n, rfl, hn⟩ := hmatch m rfl
        exact ⟨hP.node ⟨hrun, hentered⟩ hn, _, _, _, rfl⟩

theorem rule_assembles (hP : s.Assembles P) (limit : Nat) (active : List Frame) :
    CallsAssemble P (s.rule limit active) :=
  fun name cursor before =>
    (rule_assembles_node hP limit active name cursor before).imp fun _ _ h m hm => (h m hm).1

end Session

end GrammarKit
