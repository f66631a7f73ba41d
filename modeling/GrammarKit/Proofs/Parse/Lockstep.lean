import GrammarKit.Proofs.Parse.Soundness

/-!
One parser on two inputs. If the cursors of the two can be matched so that order, ends, positions
and tokens correspond, both parses go through the same calls, and they end with the same tree or
with the same error. What is compared is the answer and the farthest failures; the events of the
two parses differ in their cursors.
-/
namespace GrammarKit

/-- The cursors of two inputs that correspond, for a parser whose productions name tokens in `names`
only. -/
structure Lockstep (p : Parser) (names : List Text) (input input' : Input)
    (R : Nat → Nat → Prop) : Prop where
  lt_iff : ∀ {c i d j}, R c i → R d j → (c < d ↔ i < j)
  inside_iff : ∀ {c i}, R c i → (c < input.length ↔ i < input'.length)
  position_eq : ∀ {c i}, R c i → input.position c = input'.position i
  skip : ∀ {c i}, R c i →
    (p.session input).skip c = .ok c ∧ (p.session input').skip i = .ok i
  token : ∀ {c i}, R c i → ∀ name ∈ names,
    ((p.session input).token? name c = .ok none ∧
      (p.session input').token? name i = .ok none) ∨
    ∃ token stop stop' d j, (p.session input).token? name c = .ok (some (token, stop)) ∧
      (p.session input').token? name i = .ok (some (token, stop')) ∧
      (p.session input).skip stop = .ok d ∧ (p.session input').skip stop' = .ok j ∧ R d j
  start : ∃ c i, (p.session input).skip 0 = .ok c ∧ (p.session input').skip 0 = .ok i ∧ R c i

def RuleSet.covers (rs : RuleSet) (names : List Text) : Singular → Bool
  | .symbol name _ => rs.isProduction name || decide (name ∈ names)
  | _ => false

/-- Productions refer to productions and to the names only. -/
def RuleSet.Covered (rs : RuleSet) (names : List Text) : Prop :=
  ∀ r ∈ rs.rules, r.kind = .production → Alternation.all (rs.covers names) r.alternatives = true

def Match.Agrees (R : Nat → Nat → Prop) (m m' : Match) : Prop :=
  R m.stop m'.stop ∧ m.children = m'.children

def Farthest.Agrees (R : Nat → Nat → Prop) (f f' : Farthest) : Prop :=
  R f.cursor f'.cursor ∧ f.names = f'.names

def Frame.Agrees (R : Nat → Nat → Prop) (f f' : Frame) : Prop :=
  f.rule = f'.rule ∧ R f.cursor f'.cursor

def Progress.Agrees (R : Nat → Nat → Prop) (p p' : Progress) : Prop :=
  Option.Rel (Farthest.Agrees R) p.farthest p'.farthest

namespace Lockstep

open Attempt Session

variable {p : Parser} {names : List Text} {input input' : Input} {R : Nat → Nat → Prop}
  {waived : Halt → Prop}

theorem eq_iff (h : Lockstep p names input input' R) {c i d j : Nat} (hc : R c i) (hd : R d j) :
    c = d ↔ i = j := by
  have hlt := h.lt_iff hc hd
  have hgt := h.lt_iff hd hc
  omega

theorem note_agrees (h : Lockstep p names input input' R) {f f' : Option Farthest}
    (hf : Option.Rel (Farthest.Agrees R) f f') {c i : Nat} (hc : R c i) (name : Text) :
    Option.Rel (Farthest.Agrees R) (Farthest.note f c name) (Farthest.note f' i name) := by
  cases hf with
  | none => exact .some ⟨hc, rfl⟩
  | @some f f' hff =>
    obtain ⟨hcursor, hnames⟩ := hff
    have hlt := h.lt_iff hcursor hc
    have heq := h.eq_iff hcursor hc
    simp only [Farthest.note, hlt, heq, hnames]
    split
    · exact .some ⟨hc, rfl⟩
    · split
      · exact .some ⟨hcursor, rfl⟩
      · exact .some ⟨hcursor, hnames⟩

abbrev Follows {α β : Type} (waived : Halt → Prop) (input input' : Input) (R : Nat → Nat → Prop)
    (x : Attempt α) (y : Attempt β) (answers : α → β → Prop) : Prop :=
  InStep (Progress.Agrees R)
    (fun halt halt' => Parser.ofHalt input halt = Parser.ofHalt input' halt') waived x y answers

variable {α β : Type} {answers : α → β → Prop}

theorem record_bind {e e' : Event} (he : e.failure? = none) (he' : e'.failure? = none)
    {f : Unit → Attempt α} {f' : Unit → Attempt β}
    (h : Follows waived input input' R (f ()) (f' ()) answers) :
    Follows waived input input' R (record e >>= f) (record e' >>= f') answers := by
  have hrecord : Follows waived input input' R (record e) (record e') (fun _ _ => True) := by
    refine InStep.of_modify fun p p' hp => ?_
    simpa only [Progress.Agrees, Progress.record, he, he'] using hp
  exact hrecord.bind fun _ _ _ => h

theorem record_failure_bind (h : Lockstep p names input input' R) {e e' : Event} {c i : Nat}
    {name : Text} (hc : R c i) (he : e.failure? = some (c, name))
    (he' : e'.failure? = some (i, name))
    {f : Unit → Attempt α} {f' : Unit → Attempt β}
    (hf : Follows waived input input' R (f ()) (f' ()) answers) :
    Follows waived input input' R (record e >>= f) (record e' >>= f') answers := by
  have hrecord : Follows waived input input' R (record e) (record e') (fun _ _ => True) := by
    refine InStep.of_modify fun p p' hp => ?_
    simp only [Progress.Agrees, Progress.record, he, he']
    exact h.note_agrees hp hc name
  exact hrecord.bind fun _ _ _ => hf

theorem ofFault_bind {γ γ' : Type} {x : Except Fault γ} {x' : Except Fault γ'} {b : γ} {b' : γ'}
    (hx : x = .ok b) (hx' : x' = .ok b') {f : γ → Attempt α} {f' : γ' → Attempt β}
    (h : Follows waived input input' R (f b) (f' b') answers) :
    Follows waived input input' R (ofFault x >>= f) (ofFault x' >>= f') answers := by
  rw [hx, hx']
  exact h

abbrev Matches (waived : Halt → Prop) (input input' : Input) (R : Nat → Nat → Prop)
    (x y : Attempt Outcome) : Prop :=
  Follows waived input input' R x y (Option.Rel (Match.Agrees R))

theorem takeToken_matches (h : Lockstep p names input input' R) {name : Text} (hname : name ∈ names)
    {c i : Nat} (hc : R c i) :
    Matches waived input input' R ((p.session input).takeToken name c)
      ((p.session input').takeToken name i) := by
  unfold takeToken
  rcases h.token hc name hname with ⟨hnone, hnone'⟩ |
    ⟨token, stop, stop', d, j, hsome, hsome', hskip, hskip', hd⟩
  · refine ofFault_bind hnone hnone' ?_
    exact h.record_failure_bind hc rfl rfl (InStep.of_pure .none)
  · refine ofFault_bind hsome hsome' (ofFault_bind hskip hskip' ?_)
    exact record_bind rfl rfl (InStep.of_pure (.some ⟨hd, rfl⟩))

theorem settle_matches (h : Lockstep p names input input' R) {o o' : Outcome}
    (ho : Option.Rel (Match.Agrees R) o o') :
    Matches waived input input' R ((p.session input).settle o) ((p.session input').settle o') := by
  cases ho with
  | none => exact InStep.of_pure .none
  | @some m m' hm =>
    obtain ⟨hskip, hskip'⟩ := h.skip hm.1
    exact ofFault_bind hskip hskip' (InStep.of_pure (.some hm))

theorem takeAll_matches (h : Lockstep p names input input' R) {part part' : Nat → Attempt Outcome}
    (hpart : ∀ {c i}, R c i → Matches waived input input' R (part c) (part' i)) {c i : Nat}
    (hc : R c i) :
    Follows waived input input' R (takeAll input.length part c) (takeAll input'.length part' i)
      (fun r r' => r.1 = r'.1 ∧ Match.Agrees R r.2 r'.2) := by
  induction hleft : input.length - c using Nat.strongRecOn generalizing c i with
  | ind left ih =>
    unfold takeAll
    refine record_bind rfl rfl ((hpart hc).bind fun o o' ho => ?_)
    cases ho with
    | none => exact InStep.of_pure ⟨rfl, hc, rfl⟩
    | @some m m' hm =>
      obtain ⟨hstop, hchildren⟩ := hm
      have hlt := h.lt_iff hc hstop
      have hinside := h.inside_iff hc
      by_cases hgo : c < m.stop ∧ c < input.length
      · simp only [if_pos hgo, if_pos (show i < m'.stop ∧ i < input'.length by omega)]
        refine (ih (input.length - m.stop) (by omega) hstop rfl).bind fun r r' hr => ?_
        obtain ⟨hcount, hrest, hothers⟩ := hr
        refine InStep.of_pure ⟨by rw [hcount], hrest, ?_⟩
        simp only [hchildren, hothers]
      · simp only [if_neg hgo, if_neg (show ¬ (i < m'.stop ∧ i < input'.length) by omega)]
        exact InStep.of_pure ⟨rfl, hstop, hchildren⟩

theorem quantified_matches (h : Lockstep p names input input' R)
    {part part' : Nat → Attempt Outcome}
    (hpart : ∀ {c i}, R c i → Matches waived input input' R (part c) (part' i))
    (quantifier : Quantifier)    {c i : Nat} (hc : R c i) :
    Matches waived input input' R ((p.session input).quantified quantifier part c)
      ((p.session input').quantified quantifier part' i) := by
  unfold quantified
  cases quantifier with
  | one => exact hpart hc
  | maybe =>
    refine (hpart hc).bind fun o o' ho => ?_
    cases ho with
    | none => exact InStep.of_pure (.some ⟨hc, rfl⟩)
    | some hm => exact InStep.of_pure (.some hm)
  | any =>
    refine (h.takeAll_matches hpart hc).bind fun r r' hr => ?_
    exact InStep.of_pure (.some hr.2)
  | many =>
    refine (h.takeAll_matches hpart hc).bind fun r r' hr => ?_
    obtain ⟨hcount, hm⟩ := hr
    simp only [hcount]
    split
    · exact InStep.of_pure .none
    · exact InStep.of_pure (.some hm)

def CallsMatch (waived : Halt → Prop) (p : Parser) (input input' : Input) (R : Nat → Nat → Prop)
    (call call' : Text → Nat → Attempt Outcome) : Prop :=
  ∀ name, p.rules.isProduction name = true → ∀ {c i}, R c i →
    Matches waived input input' R (call name c) (call' name i)

section Parts

variable {call call' : Text → Nat → Attempt Outcome}

mutual

theorem singular_matches (h : Lockstep p names input input' R)
    (hcall : CallsMatch waived p input input' R call call') : ∀ (x : Singular),
    x.all (p.rules.covers names) = true → ∀ {c i}, R c i →
      Matches waived input input' R (singular (p.session input) call x c)
        (singular (p.session input') call' x i)
  | .group alternatives, hcovers, c, i, hc => by
    simp only [Singular.all] at hcovers
    simp only [singular]
    refine record_bind rfl rfl ?_
    exact (alternation_matches h hcall alternatives hcovers hc).bind fun o o' ho =>
      h.settle_matches ho
  | .symbol name span, hcovers, c, i, hc => by
    simp only [Singular.all, RuleSet.covers] at hcovers
    simp only [singular]
    by_cases hproduction : p.rules.isProduction name = true
    · have hleft : (p.session input).rules.isProduction name = true := hproduction
      have hright : (p.session input').rules.isProduction name = true := hproduction
      rw [if_pos hleft, if_pos hright]
      exact (hcall name hproduction hc).bind fun o o' ho => h.settle_matches ho
    · have hleft : ¬ (p.session input).rules.isProduction name = true := hproduction
      have hright : ¬ (p.session input').rules.isProduction name = true := hproduction
      rw [if_neg hleft, if_neg hright]
      exact h.takeToken_matches (by simpa [hproduction] using hcovers) hc
  | .literal .., hcovers, _, _, _ => by simp [Singular.all, RuleSet.covers] at hcovers
  | .charset .., hcovers, _, _, _ => by simp [Singular.all, RuleSet.covers] at hcovers

theorem alternation_matches (h : Lockstep p names input input' R)
    (hcall : CallsMatch waived p input input' R call call') :
    ∀ (alternatives : List (Alternative (Item Singular))),
    Alternation.all (p.rules.covers names) alternatives = true → ∀ {c i}, R c i →
      Matches waived input input' R (alternation (p.session input) call alternatives c)
        (alternation (p.session input') call' alternatives i)
  | [], _, c, i, _ => by
    simp only [alternation]
    exact InStep.of_pure .none
  | a :: rest, hcovers, c, i, hc => by
    simp only [Alternation.all, Bool.and_eq_true] at hcovers
    simp only [alternation]
    refine (alternative_matches h hcall a hcovers.1 hc).bind fun o o' ho => ?_
    cases ho with
    | none => exact alternation_matches h hcall rest hcovers.2 hc
    | some hm => exact InStep.of_pure (.some hm)

theorem alternative_matches (h : Lockstep p names input input' R)
    (hcall : CallsMatch waived p input input' R call call') : ∀ (a : Alternative (Item Singular)),
    Alternative.all (p.rules.covers names) a = true → ∀ {c i}, R c i →
      Matches waived input input' R (alternative (p.session input) call a c)
        (alternative (p.session input') call' a i)
  | ⟨_, _, items, _⟩, hcovers, c, i, hc => by
    simp only [Alternative.all] at hcovers
    simp only [alternative]
    exact body_matches h hcall items hcovers hc

theorem body_matches (h : Lockstep p names input input' R)
    (hcall : CallsMatch waived p input input' R call call') : ∀ (items : List (Item Singular)),
    Body.all (p.rules.covers names) items = true → ∀ {c i}, R c i →
      Matches waived input input' R (body (p.session input) call items c)
        (body (p.session input') call' items i)
  | [], _, c, i, hc => by
    simp only [body]
    exact InStep.of_pure (.some ⟨hc, rfl⟩)
  | item :: rest, hcovers, c, i, hc => by
    simp only [Body.all, Bool.and_eq_true] at hcovers
    simp only [body]
    refine (item_matches h hcall item hcovers.1 hc).bind fun o o' ho => ?_
    cases ho with
    | none => exact InStep.of_pure .none
    | @some m m' hm =>
      refine (body_matches h hcall rest hcovers.2 hm.1).bind fun o o' ho => ?_
      cases ho with
      | none => exact InStep.of_pure .none
      | @some n n' hn =>
        refine InStep.of_pure (.some ⟨hn.1, ?_⟩)
        simp only [hm.2, hn.2]

theorem item_matches (h : Lockstep p names input input' R)
    (hcall : CallsMatch waived p input input' R call call') : ∀ (x : Item Singular),
    Item.all (p.rules.covers names) x = true → ∀ {c i}, R c i →
      Matches waived input input' R (item (p.session input) call x c)
        (item (p.session input') call' x i)
  | ⟨inner, quantifier⟩, hcovers, c, i, hc => by
    simp only [Item.all] at hcovers
    simp only [item]
    exact h.quantified_matches (singular_matches h hcall inner hcovers) quantifier hc

end

theorem choose_matches (h : Lockstep p names input input' R)
    (hcall : CallsMatch waived p input input' R call call') (alternatives : Alternation)
    (hcovers : Alternation.all (p.rules.covers names) alternatives = true) {c i : Nat}
    (hc : R c i) : ∀ index,
    Follows waived input input' R (choose (p.session input) call index alternatives c)
      (choose (p.session input') call' index alternatives i)
      (Option.Rel fun r r' => r.1 = r'.1 ∧ Match.Agrees R r.2 r'.2) := by
  induction alternatives with
  | nil => exact fun index => InStep.of_pure .none
  | cons a rest ih =>
    intro index
    simp only [Alternation.all, Bool.and_eq_true] at hcovers
    simp only [choose]
    refine (alternative_matches h hcall a hcovers.1 hc).bind fun o o' ho => ?_
    cases ho with
    | none => exact ih hcovers.2 (index + 1)
    | some hm => exact InStep.of_pure (.some ⟨rfl, hm⟩)

theorem expand_matches (h : Lockstep p names input input' R)
    (hcall : CallsMatch waived p input input' R call call') (active active' : List Frame) {r : Rule}
    (hcovers : Alternation.all (p.rules.covers names) r.alternatives = true) {c i : Nat}
    (hc : R c i) :
    Matches waived input input' R ((p.session input).expand call active r c)
      ((p.session input').expand call' active' r i) := by
  unfold expand
  refine record_bind rfl rfl ((h.choose_matches hcall r.alternatives hcovers hc 0).bind
    fun o o' ho => ?_)
  cases ho with
  | none => exact h.record_failure_bind hc rfl rfl (InStep.of_pure .none)
  | @some r₁ r₂ hr =>
    obtain ⟨hindex, hstop, hchildren⟩ := hr
    refine record_bind rfl rfl (InStep.of_pure (.some ⟨hstop, ?_⟩))
    have hposition : (p.session input).input.position c = (p.session input').input.position i :=
      h.position_eq hc
    simp only [node, hindex, hchildren, hposition]
    rfl

end Parts

theorem mem_active_iff (h : Lockstep p names input input' R) {active active' : List Frame}
    (hactive : List.Forall₂ (Frame.Agrees R) active active') {c i : Nat} (hc : R c i)
    (name : Text) :
    (⟨name, c⟩ : Frame) ∈ active ↔ (⟨name, i⟩ : Frame) ∈ active' := by
  induction hactive with
  | nil => simp
  | @cons f f' rest rest' hf _ ih =>
    obtain ⟨rule, d⟩ := f
    obtain ⟨rule', j⟩ := f'
    obtain ⟨rfl, hcursor⟩ : rule = rule' ∧ R d j := hf
    rw [List.mem_cons, List.mem_cons, ih, Frame.mk.injEq, Frame.mk.injEq, h.eq_iff hc hcursor]

theorem enter_matches (h : Lockstep p names input input' R) {active active' : List Frame}
    (hactive : List.Forall₂ (Frame.Agrees R) active active') {name : Text} {r : Rule}
    (hget : p.rules.get? name = some r) {c i : Nat} (hc : R c i) {go go' : Rule → Attempt Outcome}
    (hgo : Matches waived input input' R (go r) (go' r)) :
    Matches waived input input' R ((p.session input).enter active name c go)
      ((p.session input').enter active' name i go') := by
  have hleft : (p.session input).rules.get? name = some r := hget
  have hright : (p.session input').rules.get? name = some r := hget
  have hmem := h.mem_active_iff hactive hc name
  simp only [enter, hleft, hright]
  by_cases hactive : (⟨name, c⟩ : Frame) ∈ active
  · rw [if_pos hactive, if_pos (hmem.mp hactive)]
    refine InStep.of_throw ?_
    simp only [Parser.ofHalt, h.position_eq hc]
  · rw [if_neg hactive, if_neg fun h' => hactive (hmem.mpr h')]
    exact hgo

/-- Calls match if they may be nested equally deep, and otherwise as long as none is nested too
deep. -/
theorem rule_matches (h : Lockstep p names input input' R)
    (hcovered : p.rules.Covered names) (limit : Nat) :
    ∀ {limit' : Nat}, (limit = limit' ∨ ∀ frame, waived (.tooDeep frame)) →
      ∀ {active active' : List Frame}, List.Forall₂ (Frame.Agrees R) active active' →
        CallsMatch waived p input input' R ((p.session input).rule limit active)
          ((p.session input').rule limit' active') := by
  induction limit with
  | zero =>
    intro limit' hlimits active active' hactive name hproduction c i hc
    obtain ⟨r, hget, -⟩ := RuleSet.isProduction_iff.mp hproduction
    cases limit' with
    | zero =>
      simp only [rule]
      refine h.enter_matches hactive hget hc (InStep.of_throw ?_)
      simp only [Parser.ofHalt, h.position_eq hc]
    | succ limit' =>
      have hwaived := hlimits.resolve_left (by omega)
      simp only [rule]
      exact h.enter_matches hactive hget hc fun s t _ => Paired.of_left (hwaived _) s _
  | succ limit ih =>
    intro limit' hlimits active active' hactive name hproduction c i hc
    obtain ⟨r, hget, hkind⟩ := RuleSet.isProduction_iff.mp hproduction
    cases limit' with
    | zero =>
      have hwaived := hlimits.resolve_left (by omega)
      simp only [rule]
      exact h.enter_matches hactive hget hc fun s t _ => Paired.of_right (hwaived _) _ t
    | succ limit' =>
      have hlower : limit = limit' ∨ ∀ frame, waived (.tooDeep frame) :=
        hlimits.imp_left Nat.succ.inj
      have hframe : Frame.Agrees R ⟨name, c⟩ ⟨name, i⟩ := ⟨rfl, hc⟩
      simp only [rule]
      refine h.enter_matches hactive hget hc ?_
      exact h.expand_matches (ih hlower (.cons hframe hactive)) active active'
        (hcovered r (RuleSet.mem_of_get? hget) hkind) hc

def Notes (x : Attempt Outcome) : Prop :=
  Ensures (fun _ => True) x (fun o progress => o = none → progress.farthest.isSome = true)
    (fun _ _ => True)

theorem isSome_note (f : Option Farthest) (cursor : Nat) (name : Text) :
    (Farthest.note f cursor name).isSome = true := by
  unfold Farthest.note
  split
  · rfl
  · split
    · rfl
    · split
      · rfl
      · rfl

theorem expand_notes (s : Session) (call : Text → Nat → Attempt Outcome) (active : List Frame)
    (r : Rule) (cursor : Nat) : Notes (s.expand call active r cursor) := by
  have hrecord : ∀ e, Ensures (fun _ => True) (record e) (fun _ _ => True) (fun _ _ => True) :=
    fun e => Ensures.of_modify fun _ _ => trivial
  have hchoose : Ensures (fun _ => True) (s.choose call 0 r.alternatives cursor)
      (fun _ _ => True) (fun _ _ => True) := Yields.of_true _
  refine (hrecord _).bind fun _ => hchoose.bind fun o => ?_
  cases o with
  | none =>
    have hrejected : Ensures (fun _ => True) (record (.rejected ⟨r.name, cursor⟩ active.length))
        (fun _ progress => progress.farthest.isSome = true) (fun _ _ => True) :=
      Ensures.of_modify fun progress _ => isSome_note progress.farthest cursor r.name
    exact hrejected.bind fun _ => Ensures.of_pure fun _ h _ => h
  | some r => exact (hrecord _).bind fun _ => Ensures.of_pure fun _ _ h => absurd h (by simp)

theorem rule_notes (s : Session) (limit : Nat) (active : List Frame) (name : Text) (cursor : Nat) :
    Notes (s.rule limit active name cursor) := by
  have henter : ∀ go : Rule → Attempt Outcome, (∀ r, Notes (go r)) →
      Notes (s.enter active name cursor go) := by
    intro go hgo
    unfold enter
    split
    · exact Ensures.of_throw fun _ _ => trivial
    · simp only
      split
      · exact Ensures.of_throw fun _ _ => trivial
      · exact hgo _
  cases limit with
  | zero => exact henter _ fun _ => Ensures.of_throw fun _ _ => trivial
  | succ limit => exact henter _ fun r => expand_notes s _ active r cursor

/-- The farthest failures are reported in the same way. -/
theorem noAlternativeMatched_eq (h : Lockstep p names input input' R) {f f' : Option Farthest}
    (hf : Option.Rel (Farthest.Agrees R) f f') (hsome : f.isSome = true) :
    Parser.noAlternativeMatched input f = Parser.noAlternativeMatched input' f' := by
  cases hf with
  | none => cases hsome
  | some hg => simp only [Parser.noAlternativeMatched, Option.getD_some, h.position_eq hg.1, hg.2]

/-- What a match of the start rule comes to is the same for both. -/
theorem judge_eq (h : Lockstep p names input input' R) (start : Text) (allowTrailing : Bool)
    {f f' : Option Farthest} (hf : Option.Rel (Farthest.Agrees R) f f') {m m' : Match}
    (hm : Match.Agrees R m m') :
    Parser.judge start input allowTrailing f m = Parser.judge start input' allowTrailing f' m' := by
  have hinside := h.inside_iff hm.1
  have hany : (f.any fun g => decide (m.stop ≤ g.cursor)) =
      (f'.any fun g => decide (m'.stop ≤ g.cursor)) := by
    cases hf with
    | none => rfl
    | @some g g' hg =>
      have hlt := h.lt_iff hg.1 hm.1
      simp only [Option.any_some, decide_eq_decide]
      omega
  unfold Parser.judge
  by_cases hleft : m.stop < input.length ∧ ¬ allowTrailing = true
  · have hright : m'.stop < input'.length ∧ ¬ allowTrailing = true := by
      exact ⟨hinside.mp hleft.1, hleft.2⟩
    rw [if_pos hleft, if_pos hright, hany]
    split
    · next hsome =>
      have hfound : f.isSome = true := by
        cases hf with
        | none => cases hsome
        | some => rfl
      rw [h.noAlternativeMatched_eq hf hfound]
    · rw [h.position_eq hm.1]
  · have hright : ¬ (m'.stop < input'.length ∧ ¬ allowTrailing = true) := by
      exact fun hright => hleft ⟨hinside.mpr hright.1, hright.2⟩
    rw [if_neg hleft, if_neg hright, hm.2]

/-- Both parses end with the same answer, unless one of them halts in a way that is waived. -/
theorem parse_cases (h : Lockstep p names input input' R) (waived : Halt → Prop)
    (hcovered : p.rules.Covered names) {limit limit' : Nat}
    (hlimits : limit = limit' ∨ ∀ frame, waived (.tooDeep frame)) (start : Text)
    (allowTrailing : Bool) :
    (p.parse limit start input allowTrailing).1 = (p.parse limit' start input' allowTrailing).1 ∨
      (∃ halt, waived halt ∧
        (p.parse limit start input allowTrailing).1 = .error (Parser.ofHalt input halt)) ∨
      ∃ halt, waived halt ∧
        (p.parse limit' start input' allowTrailing).1 = .error (Parser.ofHalt input' halt) := by
  unfold Parser.parse
  by_cases hstart : p.rules.isProduction start = true
  · obtain ⟨c, i, hskip, hskip', hc⟩ := h.start
    have hrule := h.rule_matches hcovered limit hlimits .nil start hstart hc Progress.initial
      Progress.initial .none
    have hnotes := rule_notes (p.session input) limit [] start c Progress.initial trivial
    rw [if_pos hstart, if_pos hstart, Parser.run_attempt hskip, Parser.run_attempt hskip']
    generalize ((p.session input).rule limit [] start c).run.run Progress.initial = left
      at hrule hnotes ⊢
    generalize ((p.session input').rule limit' [] start i).run.run Progress.initial = right
      at hrule ⊢
    obtain ⟨halt | o, progress⟩ := left
    · obtain ⟨halt' | o', progress'⟩ := right
      · rcases hrule with heq | hwaived | hwaived
        · exact Or.inl (congrArg Except.error heq)
        · exact Or.inr (Or.inl ⟨halt, hwaived, rfl⟩)
        · exact Or.inr (Or.inr ⟨halt', hwaived, rfl⟩)
      · exact Or.inr (Or.inl ⟨halt, hrule, rfl⟩)
    · obtain ⟨halt' | o', progress'⟩ := right
      · exact Or.inr (Or.inr ⟨halt', hrule, rfl⟩)
      · obtain ⟨ho, hprogress⟩ := hrule
        refine Or.inl ?_
        cases ho with
        | none =>
          have heq := h.noAlternativeMatched_eq hprogress (hnotes rfl)
          exact congrArg (fun e => Except.error (Failure.parse e)) heq
        | some hm => exact h.judge_eq start allowTrailing hprogress hm
  · rw [if_neg hstart, if_neg hstart]
    exact Or.inl rfl

/-- Within the same limit both parses end with the same answer. -/
theorem parse_eq (h : Lockstep p names input input' R)
    (hcovered : p.rules.Covered names) (limit : Nat) (start : Text)
    (allowTrailing : Bool) :
    (p.parse limit start input allowTrailing).1 = (p.parse limit start input' allowTrailing).1 := by
  rcases h.parse_cases (fun _ => False) hcovered (Or.inl rfl) start allowTrailing with
    heq | ⟨_, hwaived, -⟩ | ⟨_, hwaived, -⟩
  · exact heq
  · exact hwaived.elim
  · exact hwaived.elim

/-- Whatever the limits are, two parses that are nested within them end with the same answer. -/
theorem parse_eq_of_within (h : Lockstep p names input input' R)
    (hcovered : p.rules.Covered names) {limit limit' : Nat}
    {start : Text} {allowTrailing : Bool}
    (hdeep : ∀ position rule, (p.parse limit start input allowTrailing).1 ≠
      .error (.parse (.tooDeep position rule)))
    (hdeep' : ∀ position rule, (p.parse limit' start input' allowTrailing).1 ≠
      .error (.parse (.tooDeep position rule))) :
    (p.parse limit start input allowTrailing).1 =
      (p.parse limit' start input' allowTrailing).1 := by
  have hlimits : limit = limit' ∨ ∀ frame : Frame, Halt.IsTooDeep (.tooDeep frame) :=
    Or.inr fun frame => ⟨frame, rfl⟩
  rcases h.parse_cases Halt.IsTooDeep hcovered hlimits start allowTrailing with
    heq | ⟨_, ⟨frame, rfl⟩, hparse⟩ | ⟨_, ⟨frame, rfl⟩, hparse⟩
  · exact heq
  · exact absurd hparse (hdeep _ _)
  · exact absurd hparse (hdeep' _ _)

end Lockstep

end GrammarKit
