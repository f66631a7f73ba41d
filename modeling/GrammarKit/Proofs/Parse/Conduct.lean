import GrammarKit.Proofs.Parse.Soundness

/-!
How a parse conducts itself on the way to its answer. Cursors are handed on from part to part by
tokens and by white space, and a call of a rule goes on only if the same rule is not active at the
same cursor. So all that is put on record is orderly: it stands at cursors that were handed on, and
the active calls are productions, each of them active once. What orderly events keep of the progress
of a parse is kept by the parse, and a parse gets too deep only with a stack of that many calls.
-/
namespace GrammarKit

def Outcome.Lands (C : Nat → Prop) (o : Outcome) : Prop := ∀ m, o = some m → C m.stop

namespace Session

/-- A property of cursors that is handed on by tokens and by white space. -/
structure HandsOn (s : Session) (C : Nat → Prop) : Prop where
  token : ∀ {name cursor token middle stop}, C cursor → s.Takes name cursor token middle →
    s.Skips middle stop → C stop
  skip : ∀ {cursor stop}, C cursor → s.Skips cursor stop → C stop

structure Stack (s : Session) (C : Nat → Prop) (frames : List Frame) : Prop where
  nodup : frames.Nodup
  production : ∀ frame ∈ frames, s.rules.isProduction frame.rule = true
  cursor : ∀ frame ∈ frames, C frame.cursor

/-- What may be put on record. -/
def Orderly (s : Session) (C : Nat → Prop) : Event → Prop
  | .entered frame active => s.Stack C (frame :: active)
  | .accepted frame _ _ => C frame.cursor
  | .rejected frame _ => C frame.cursor
  | .tokenTaken _ cursor stop => C cursor ∧ C stop
  | .tokenMissed _ cursor => C cursor
  | .groupTried cursor => C cursor
  | .iterationTried cursor => C cursor

/-- A property of the progress of a parse that is kept by all that may be put on record. -/
structure Minds (s : Session) (C : Nat → Prop) (inv : Progress → Prop) : Prop
    extends s.HandsOn C where
  sound : s.rules.Sound
  record : ∀ {e progress}, s.Orderly C e → inv progress → inv (progress.record e)

theorem Stack.nil (s : Session) (C : Nat → Prop) : s.Stack C [] := ⟨.nil, by simp, by simp⟩

theorem Stack.push {s : Session} {C : Nat → Prop} {active : List Frame} (h : s.Stack C active)
    {frame : Frame} (hnew : frame ∉ active) (hproduction : s.rules.isProduction frame.rule = true)
    (hcursor : C frame.cursor) : s.Stack C (frame :: active) := by
  refine ⟨List.nodup_cons.mpr ⟨hnew, h.nodup⟩, ?_, ?_⟩
  · intro other hother
    rcases List.mem_cons.mp hother with rfl | hother
    · exact hproduction
    · exact h.production other hother
  · intro other hother
    rcases List.mem_cons.mp hother with rfl | hother
    · exact hcursor
    · exact h.cursor other hother

end Session

/-- A contract of a part of a parse: a property of the progress is kept, the answer is good, and a
halt is one that may happen. -/
def Keeps {α : Type} (inv : Progress → Prop) (x : Attempt α) (good : α → Prop)
    (bad : Halt → Prop) : Prop :=
  Ensures inv x (fun a progress => inv progress ∧ good a) fun halt progress =>
    inv progress ∧ bad halt

namespace Keeps

open Attempt

variable {α β : Type} {inv : Progress → Prop} {good : α → Prop} {bad : Halt → Prop}

theorem of_pure {a : α} (h : good a) : Keeps inv (pure a) good bad :=
  Ensures.of_pure fun _ hinv => ⟨hinv, h⟩

theorem of_throw {halt : Halt} (h : bad halt) : Keeps inv (throw halt : Attempt α) good bad :=
  Ensures.of_throw fun _ hinv => ⟨hinv, h⟩

theorem bind {x : Attempt β} {f : β → Attempt α} {middle : β → Prop}
    (hx : Keeps inv x middle bad) (hf : ∀ b, middle b → Keeps inv (f b) good bad) :
    Keeps inv (x >>= f) good bad := by
  refine Ensures.bind hx fun b => ?_
  intro progress hprogress
  exact hf b hprogress.2 progress hprogress.1

theorem ofFault_bind {x : Except Fault β} {b : β} (hx : x = .ok b) {f : β → Attempt α}
    (h : Keeps inv (f b) good bad) : Keeps inv (ofFault x >>= f) good bad :=
  ensures_ofFault_bind hx h

theorem record_bind {e : Event} (he : ∀ progress, inv progress → inv (progress.record e))
    {f : Unit → Attempt α} (h : Keeps inv (f ()) good bad) :
    Keeps inv (record e >>= f) good bad := ensures_record_bind he h

end Keeps

namespace Session

open Attempt

variable {s : Session} {C : Nat → Prop} {inv : Progress → Prop} {bad : Halt → Prop}

theorem Minds.record_bind (h : s.Minds C inv) {α : Type} {e : Event} {f : Unit → Attempt α}
    {good : α → Prop} (he : s.Orderly C e) (hf : Keeps inv (f ()) good bad) :
    Keeps inv (Attempt.record e >>= f) good bad :=
  Keeps.record_bind (fun _ hinv => h.record he hinv) hf

/-- A record of orderly events stays one. -/
theorem minds_trace {C : Nat → Prop} (hs : s.rules.Sound) (hC : s.HandsOn C) :
    s.Minds C fun progress => ∀ e ∈ progress.trace, s.Orderly C e where
  toHandsOn := hC
  sound := hs
  record := by
    intro e progress he hinv e' he'
    rcases List.mem_cons.mp he' with rfl | he'
    · exact he
    · exact hinv e' he'

theorem takeToken_keeps (h : s.Minds C inv) {name : Text} (hknown : s.rules.contains name = true)
    (hlexical : s.rules.isProduction name = false) {cursor : Nat} (hc : C cursor) :
    Keeps inv (s.takeToken name cursor) (Outcome.Lands C) bad := by
  unfold takeToken
  rcases token?_cases h.sound hknown hlexical cursor with
    ⟨token, middle, htoken, htakes⟩ | ⟨htoken, -⟩
  · obtain ⟨stop, hskip, hskips⟩ := skip_cases h.sound middle
    have hstop : C stop := h.token hc htakes hskips
    apply Keeps.ofFault_bind htoken
    apply Keeps.ofFault_bind hskip
    refine h.record_bind ⟨hc, hstop⟩ ?_
    apply Keeps.of_pure
    rintro _ ⟨⟩
    exact hstop
  · apply Keeps.ofFault_bind htoken
    refine h.record_bind hc ?_
    exact Keeps.of_pure nofun

theorem settle_keeps (h : s.Minds C inv) {o : Outcome} (ho : o.Lands C) :
    Keeps inv (s.settle o) (Outcome.Lands C) bad := by
  cases o with
  | none => exact Keeps.of_pure nofun
  | some m =>
    obtain ⟨stop, hskip, hskips⟩ := skip_cases h.sound m.stop
    apply Keeps.ofFault_bind hskip
    apply Keeps.of_pure
    rintro _ ⟨⟩
    exact h.skip (ho m rfl) hskips

def PartKeeps (C : Nat → Prop) (inv : Progress → Prop) (bad : Halt → Prop)
    (part : Nat → Attempt Outcome) : Prop :=
  ∀ cursor, C cursor → Keeps inv (part cursor) (Outcome.Lands C) bad

theorem takeAll_keeps (h : s.Minds C inv) {part : Nat → Attempt Outcome}
    (hpart : PartKeeps C inv bad part) (length : Nat) {cursor : Nat} (hc : C cursor) :
    Keeps inv (takeAll length part cursor) (fun r => C r.2.stop) bad := by
  induction hleft : length - cursor using Nat.strong_induction_on generalizing cursor with
  | _ left ih =>
    unfold takeAll
    refine h.record_bind hc ?_
    apply (hpart cursor hc).bind
    intro o ho
    cases o with
    | none => exact Keeps.of_pure hc
    | some m =>
      have hstop : C m.stop := ho m rfl
      by_cases hgo : cursor < m.stop ∧ cursor < length
      · simp only [if_pos hgo]
        apply (ih (length - m.stop) (by omega) hstop rfl).bind
        intro r hr
        exact Keeps.of_pure hr
      · simp only [if_neg hgo]
        exact Keeps.of_pure hstop

theorem quantified_keeps (h : s.Minds C inv) {part : Nat → Attempt Outcome}
    (hpart : PartKeeps C inv bad part) (quantifier : Quantifier) :
    PartKeeps C inv bad (s.quantified quantifier part) := by
  intro cursor hc
  unfold quantified
  cases quantifier with
  | one => exact hpart cursor hc
  | maybe =>
    apply (hpart cursor hc).bind
    intro o ho
    cases o with
    | none =>
      apply Keeps.of_pure
      rintro _ ⟨⟩
      exact hc
    | some m => exact Keeps.of_pure ho
  | any =>
    apply (takeAll_keeps h hpart s.length hc).bind
    intro r hr
    apply Keeps.of_pure
    rintro _ ⟨⟩
    exact hr
  | many =>
    apply (takeAll_keeps h hpart s.length hc).bind
    intro r hr
    apply Keeps.of_pure
    intro m hm
    split at hm
    · cases hm
    · cases hm
      exact hr

def CallsKeep (s : Session) (C : Nat → Prop) (inv : Progress → Prop) (bad : Halt → Prop)
    (call : Text → Nat → Attempt Outcome) : Prop :=
  ∀ name, s.rules.isProduction name = true → PartKeeps C inv bad (call name)

section Parts

variable {call : Text → Nat → Attempt Outcome}

mutual

/-- A part keeps to its contract if the rules it calls do. -/
theorem singular_keeps (h : s.Minds C inv) (hcall : s.CallsKeep C inv bad call) :
    ∀ (x : Singular), x.all s.rules.knows = true → PartKeeps C inv bad (singular s call x)
  | .group alternatives, hknows, cursor, hc => by
    simp only [Singular.all] at hknows
    simp only [singular]
    refine h.record_bind hc ?_
    apply (alternation_keeps h hcall alternatives hknows cursor hc).bind
    exact fun o ho => settle_keeps h ho
  | .symbol name span, hknows, cursor, hc => by
    simp only [Singular.all, RuleSet.knows] at hknows
    simp only [singular]
    by_cases hproduction : s.rules.isProduction name = true
    · rw [if_pos hproduction]
      apply (hcall name hproduction cursor hc).bind
      exact fun o ho => settle_keeps h ho
    · rw [if_neg hproduction]
      exact takeToken_keeps h hknows (by simpa using hproduction) hc
  | .literal source matchers span, hknows, _, _ => by simp [Singular.all, RuleSet.knows] at hknows
  | .charset source matcher span, hknows, _, _ => by simp [Singular.all, RuleSet.knows] at hknows

theorem alternation_keeps (h : s.Minds C inv) (hcall : s.CallsKeep C inv bad call) :
    ∀ (alternatives : List (Alternative (Item Singular))),
      Alternation.all s.rules.knows alternatives = true →
        PartKeeps C inv bad (alternation s call alternatives)
  | [], _, cursor, _ => by
    simp only [alternation]
    exact Keeps.of_pure nofun
  | a :: rest, hknows, cursor, hc => by
    simp only [Alternation.all, Bool.and_eq_true] at hknows
    simp only [alternation]
    apply (alternative_keeps h hcall a hknows.1 cursor hc).bind
    intro o ho
    cases o with
    | none => exact alternation_keeps h hcall rest hknows.2 cursor hc
    | some m => exact Keeps.of_pure ho

theorem alternative_keeps (h : s.Minds C inv) (hcall : s.CallsKeep C inv bad call) :
    ∀ (a : Alternative (Item Singular)), Alternative.all s.rules.knows a = true →
      PartKeeps C inv bad (alternative s call a)
  | ⟨_, _, items, _⟩, hknows, cursor, hc => by
    simp only [Alternative.all] at hknows
    simp only [alternative]
    exact body_keeps h hcall items hknows cursor hc

theorem body_keeps (h : s.Minds C inv) (hcall : s.CallsKeep C inv bad call) :
    ∀ (items : List (Item Singular)), Body.all s.rules.knows items = true →
      PartKeeps C inv bad (body s call items)
  | [], _, cursor, hc => by
    simp only [body]
    apply Keeps.of_pure
    rintro _ ⟨⟩
    exact hc
  | i :: rest, hknows, cursor, hc => by
    simp only [Body.all, Bool.and_eq_true] at hknows
    simp only [body]
    apply (item_keeps h hcall i hknows.1 cursor hc).bind
    intro o ho
    cases o with
    | none => exact Keeps.of_pure nofun
    | some m =>
      apply (body_keeps h hcall rest hknows.2 m.stop (ho m rfl)).bind
      intro o' ho'
      cases o' with
      | none => exact Keeps.of_pure nofun
      | some n =>
        apply Keeps.of_pure
        rintro _ ⟨⟩
        have hstop : C n.stop := ho' n rfl
        exact hstop

theorem item_keeps (h : s.Minds C inv) (hcall : s.CallsKeep C inv bad call) :
    ∀ (i : Item Singular), Item.all s.rules.knows i = true → PartKeeps C inv bad (item s call i)
  | ⟨inner, quantifier⟩, hknows, cursor, hc => by
    simp only [Item.all] at hknows
    simp only [item]
    exact quantified_keeps h (singular_keeps h hcall inner hknows) quantifier cursor hc

end

theorem choose_keeps (h : s.Minds C inv) (hcall : s.CallsKeep C inv bad call)
    (alternatives : Alternation) (hknows : Alternation.all s.rules.knows alternatives = true)
    {cursor : Nat} (hc : C cursor) : ∀ index,
      Keeps inv (choose s call index alternatives cursor)
        (fun r => ∀ position m, r = some (position, m) → C m.stop) bad := by
  induction alternatives with
  | nil => exact fun index => Keeps.of_pure nofun
  | cons a rest ih =>
    intro index
    simp only [Alternation.all, Bool.and_eq_true] at hknows
    simp only [choose]
    apply (alternative_keeps h hcall a hknows.1 cursor hc).bind
    intro o ho
    cases o with
    | none => exact ih hknows.2 (index + 1)
    | some m =>
      apply Keeps.of_pure
      rintro position _ ⟨⟩
      have hstop : C m.stop := ho m rfl
      exact hstop

theorem expand_keeps (h : s.Minds C inv) (hcall : s.CallsKeep C inv bad call) {r : Rule}
    (hknows : Alternation.all s.rules.knows r.alternatives = true) {active : List Frame}
    {cursor : Nat} (hstack : s.Stack C (⟨r.name, cursor⟩ :: active)) :
    Keeps inv (s.expand call active r cursor) (Outcome.Lands C) bad := by
  have hc : C cursor := hstack.cursor _ List.mem_cons_self
  refine h.record_bind hstack ?_
  apply (choose_keeps h hcall r.alternatives hknows hc 0).bind
  intro o ho
  cases o with
  | none =>
    refine h.record_bind hc ?_
    exact Keeps.of_pure nofun
  | some chosen =>
    refine h.record_bind hc ?_
    apply Keeps.of_pure
    rintro _ ⟨⟩
    have hstop : C chosen.2.stop := ho _ _ rfl
    exact hstop

end Parts

theorem enter_keeps {active : List Frame} {name : Text} {r : Rule}
    (hget : s.rules.get? name = some r) {cursor : Nat} {go : Rule → Attempt Outcome}
    (hagain : bad (.noProgress ⟨name, cursor⟩))
    (hgo : (⟨name, cursor⟩ : Frame) ∉ active → Keeps inv (go r) (Outcome.Lands C) bad) :
    Keeps inv (s.enter active name cursor go) (Outcome.Lands C) bad := by
  simp only [enter, hget]
  by_cases hactive : (⟨name, cursor⟩ : Frame) ∈ active
  · rw [if_pos hactive]
    exact Keeps.of_throw hagain
  · rw [if_neg hactive]
    exact hgo hactive

/-- Calls of rules keep to their contract whatever the limit is. They halt where a rule is called
again, or with one call more than the limit allows. -/
theorem rule_keeps_halts (h : s.Minds C inv) (bad : Nat → Halt → Prop)
    (hagain : ∀ {height frame}, C frame.cursor → bad height (.noProgress frame))
    (hdeep : ∀ {frame active}, s.Stack C (frame :: active) → bad active.length (.tooDeep frame))
    (limit : Nat) : ∀ {active}, s.Stack C active →
      s.CallsKeep C inv (bad (limit + active.length)) (s.rule limit active) := by
  induction limit with
  | zero =>
    intro active hactive name hproduction cursor hc
    obtain ⟨r, hget, -⟩ := RuleSet.isProduction_iff.mp hproduction
    simp only [rule]
    apply enter_keeps hget (hagain hc)
    intro hnew
    apply Keeps.of_throw
    rw [Nat.zero_add]
    exact hdeep (hactive.push hnew hproduction hc)
  | succ limit ih =>
    intro active hactive name hproduction cursor hc
    obtain ⟨r, hget, hkind⟩ := RuleSet.isProduction_iff.mp hproduction
    obtain rfl : r.name = name := RuleSet.get?_name hget
    simp only [rule]
    apply enter_keeps hget (hagain hc)
    intro hnew
    have hstack := hactive.push hnew hproduction hc
    have hheight : limit + 1 + active.length = limit + (⟨r.name, cursor⟩ :: active).length := by
      rw [List.length_cons]
      omega
    rw [hheight]
    exact expand_keeps h (ih hstack) (h.sound.knows (RuleSet.mem_of_get? hget) hkind) hstack

/-- A call that gets too deep inside of a limit leaves a stack behind that is one call higher than
the limit allows. -/
def Piled (s : Session) (C : Nat → Prop) (height : Nat) (halt : Halt) : Prop :=
  halt.IsTooDeep → ∃ frames, s.Stack C frames ∧ frames.length = height + 1

theorem rule_keeps (h : s.Minds C inv) (limit : Nat) : ∀ {active}, s.Stack C active →
    s.CallsKeep C inv (s.Piled C (limit + active.length)) (s.rule limit active) := by
  apply rule_keeps_halts h (s.Piled C)
  · rintro height frame - ⟨other, hother⟩
    cases hother
  · intro frame active hstack _
    exact ⟨frame :: active, hstack, rfl⟩

def HaltsAt (C : Nat → Prop) : Halt → Prop
  | .noProgress frame => C frame.cursor
  | .tooDeep frame => C frame.cursor
  | .fault _ => False

theorem rule_keeps_haltsAt (h : s.Minds C inv) (limit : Nat) {active : List Frame}
    (hactive : s.Stack C active) : s.CallsKeep C inv (HaltsAt C) (s.rule limit active) := by
  apply rule_keeps_halts h (fun _ => HaltsAt C) _ _ limit hactive
  · exact fun hc => hc
  · exact fun hstack => hstack.cursor _ List.mem_cons_self

end Session

namespace Parser

variable {p : Parser} {limit : Nat} {start : Text} {input : Input} {allowTrailing : Bool}
  {C : Nat → Prop} {inv : Progress → Prop}

/-- What a parse keeps from its start to its end, and how high calls are piled up in a parse that
gets too deep. -/
theorem parse_keeps (h : (p.session input).Minds C inv) (hinitial : inv Progress.initial)
    (hfirst : ∀ cursor, (p.session input).Skips 0 cursor → C cursor)
    (hstart : p.rules.isProduction start = true) :
    (∃ progress, inv progress ∧
      (p.parse limit start input allowTrailing).2 = progress.trace) ∧
    ∀ position rule, (p.parse limit start input allowTrailing).1 =
        .error (.parse (.tooDeep position rule)) →
      ∃ frames, (p.session input).Stack C frames ∧ frames.length = limit + 1 := by
  obtain ⟨cursor, hskip, hskips⟩ := (p.session input).skip_cases h.sound 0
  have hrule := Session.rule_keeps h limit (Session.Stack.nil _ C) start hstart cursor
    (hfirst cursor hskips) Progress.initial hinitial
  unfold parse
  rw [if_pos hstart, run_attempt hskip]
  generalize ((p.session input).rule limit [] start cursor).run.run Progress.initial = run
    at hrule ⊢
  obtain ⟨halt | o, progress⟩ := run
  · obtain ⟨hinv, hbad⟩ := hrule
    refine ⟨⟨progress, hinv, rfl⟩, ?_⟩
    intro position rule herror
    cases halt with
    | tooDeep frame => exact hbad ⟨frame, rfl⟩
    | noProgress frame => cases herror
    | fault f => cases herror
  · refine ⟨⟨progress, hrule.1, rfl⟩, ?_⟩
    intro position rule herror
    cases o with
    | none => cases herror
    | some m =>
      simp only [judge, noAlternativeMatched] at herror
      split at herror
      · split at herror
        · cases herror
        · cases herror
      · split at herror
        · cases herror
        · cases herror

end Parser

end GrammarKit
