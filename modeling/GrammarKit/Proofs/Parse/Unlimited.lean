import GrammarKit.Proofs.Parse.Conduct
import Mathlib.Data.List.ProdSigma

/-!
Calls without a limit. A stack holds each pair of a production and a cursor once, and no cursor is
beyond the end of the input, so there are only so many calls that can be active together. With room
for that many calls the limit never shows. Main statement: the recursion of calls without a limit
has a solution, and since each call is made on a higher stack it has no other one.
-/
namespace GrammarKit.Session

open Attempt

variable {s : Session}

/-- No cursor is handed on beyond the end of the input. -/
theorem handsOn_le (s : Session) : s.HandsOn (· ≤ s.input.length) where
  token hc htakes hskips := by
    have hmiddle := htakes.bounds
    have hstop := hskips.bounds
    omega
  skip hc hskips := by
    have hstop := hskips.bounds
    omega

/-- How many calls there are: one for each production and each cursor. -/
def capacity (s : Session) : Nat := s.rules.productions.length * (s.input.length + 1)

def frames (s : Session) : List Frame :=
  ((s.rules.productions.map Rule.name) ×ˢ (List.range (s.input.length + 1))).map fun call =>
    ⟨call.1, call.2⟩

theorem length_frames (s : Session) : s.frames.length = s.capacity := by
  rw [frames, List.length_map, List.length_product, List.length_map, List.length_range, capacity]

/-- A stack is not higher than there are calls. -/
theorem Stack.length_le {active : List Frame} (h : s.Stack (· ≤ s.input.length) active) :
    active.length ≤ s.capacity := by
  have hsubset : active ⊆ s.frames := by
    intro frame hframe
    obtain ⟨r, hget, hkind⟩ := RuleSet.isProduction_iff.mp (h.production frame hframe)
    have hmem : r ∈ s.rules.productions :=
      List.mem_filter.mpr ⟨RuleSet.mem_of_get? hget, by simpa using hkind⟩
    have hcursor : frame.cursor < s.input.length + 1 := Nat.lt_succ_of_le (h.cursor frame hframe)
    refine List.mem_map.mpr ⟨(frame.rule, frame.cursor), List.mem_product.mpr ⟨?_, ?_⟩, rfl⟩
    · exact List.mem_map.mpr ⟨r, hmem, RuleSet.get?_name hget⟩
    · exact List.mem_range.mpr hcursor
  rw [← length_frames]
  exact (h.nodup.subperm hsubset).length_le

/-- Calls without a limit. A call that is not active tries its rule inside of the active calls and
itself, and a row ends only where nothing matches or where a match does not move the cursor. -/
structure Unlimited (s : Session) (call : List Frame → Text → Nat → Attempt Outcome) : Prop where
  rule : ∀ {active name cursor}, s.Stack (· ≤ s.input.length) active →
    s.rules.isProduction name = true → cursor ≤ s.input.length →
    call active name cursor = s.enter active name cursor fun r =>
      s.expand (call (⟨name, cursor⟩ :: active)) active r cursor
  row : ∀ {active x cursor}, Singular.all s.rules.knows x = true → cursor ≤ s.input.length →
    takeAll s.length (singular s (call active) x) cursor = (do
      record (.iterationTried cursor)
      match ← singular s (call active) x cursor with
      | none => pure (0, ⟨cursor, []⟩)
      | some m =>
        if m.stop = cursor then pure (1, m)
        else
          let (count, rest) ← takeAll s.length (singular s (call active) x) m.stop
          pure (count + 1, ⟨rest.stop, m.children ++ rest.children⟩))

/-- Tries the production of a name inside of the active calls, with room for all calls that are not
active. -/
def unlimited (s : Session) (active : List Frame) : Text → Nat → Attempt Outcome :=
  s.rule (s.capacity - active.length) active

/-- As long as there is room the limit does not show, and where there is none each call is active. -/
theorem unlimited_eq {active : List Frame} (hactive : s.Stack (· ≤ s.input.length) active)
    {name : Text} (hproduction : s.rules.isProduction name = true) {cursor : Nat}
    (hcursor : cursor ≤ s.input.length) :
    s.unlimited active name cursor = s.enter active name cursor fun r =>
      s.expand (s.unlimited (⟨name, cursor⟩ :: active)) active r cursor := by
  have hheight := hactive.length_le
  by_cases hroom : active.length < s.capacity
  · have hleft : s.capacity - active.length =
        s.capacity - (⟨name, cursor⟩ :: active).length + 1 := by
      rw [List.length_cons]
      omega
    unfold unlimited
    rw [hleft, rule]
  · have hleft : s.capacity - active.length = 0 := by omega
    have hframe : (⟨name, cursor⟩ : Frame) ∈ active := by
      by_contra hnew
      have hpushed := (hactive.push hnew hproduction hcursor).length_le
      rw [List.length_cons] at hpushed
      omega
    obtain ⟨r, hget, -⟩ := RuleSet.isProduction_iff.mp hproduction
    unfold unlimited
    rw [hleft, rule]
    simp only [enter, hget, if_pos hframe]

/-- A match moves the cursor on if it moves it at all, and only inside of the input. -/
theorem takeAll_eq (hs : s.rules.Sound) {call : Text → Nat → Attempt Outcome} {bad : Halt → Prop}
    (hcall : s.SoundCalls call bad) {x : Singular} (hx : Singular.all s.rules.knows x = true)
    {cursor : Nat} (hcursor : cursor ≤ s.input.length) :
    takeAll s.length (singular s call x) cursor = (do
      record (.iterationTried cursor)
      match ← singular s call x cursor with
      | none => pure (0, ⟨cursor, []⟩)
      | some m =>
        if m.stop = cursor then pure (1, m)
        else
          let (count, rest) ← takeAll s.length (singular s call x) m.stop
          pure (count + 1, ⟨rest.stop, m.children ++ rest.children⟩)) := by
  have hpart := singular_sound hs hcall x hx cursor
  rw [takeAll]
  congr 1
  funext _
  apply hpart.bind_congr
  intro o ho
  cases o with
  | none => rfl
  | some m =>
    obtain ⟨hderives⟩ := ho
    have hbounds := hderives.bounds m rfl
    have hlength := s.length_eq
    by_cases hstays : m.stop = cursor
    · have hgo : ¬ (cursor < m.stop ∧ cursor < s.length) := by omega
      simp only [if_pos hstays, if_neg hgo]
    · have hgo : cursor < m.stop ∧ cursor < s.length := by omega
      simp only [if_neg hstays, if_pos hgo]

theorem unlimited_unlimited (hs : s.rules.Tagged s.variants) : s.Unlimited s.unlimited where
  rule hactive hproduction hcursor := unlimited_eq hactive hproduction hcursor
  row hx hcursor := takeAll_eq hs.toSound (rule_sound hs _ _) hx hcursor

section Congruence

variable {call call' : Text → Nat → Attempt Outcome} {bad : Halt → Prop}

def SameCalls (s : Session) (call call' : Text → Nat → Attempt Outcome) : Prop :=
  ∀ name, s.rules.isProduction name = true → ∀ cursor, cursor ≤ s.input.length →
    call name cursor = call' name cursor

theorem takeAll_congr {x : Singular} {part part' : Nat → Attempt Outcome}
    (hpart : ∀ cursor, Yields (part cursor) (s.Derives (.singular x) cursor) bad)
    (hsame : ∀ cursor, cursor ≤ s.input.length → part cursor = part' cursor) {cursor : Nat}
    (hc : cursor ≤ s.input.length) :
    takeAll s.length part cursor = takeAll s.length part' cursor := by
  induction hleft : s.length - cursor using Nat.strong_induction_on generalizing cursor with
  | _ left ih =>
    rw [takeAll, takeAll, ← hsame cursor hc]
    congr 1
    funext _
    apply (hpart cursor).bind_congr
    intro o ho
    cases o with
    | none => rfl
    | some m =>
      obtain ⟨hderives⟩ := ho
      have hbounds := hderives.bounds m rfl
      by_cases hgo : cursor < m.stop ∧ cursor < s.length
      · have hstop : m.stop ≤ s.input.length := by omega
        have hrest := ih (s.length - m.stop) (by omega) hstop rfl
        simp only [if_pos hgo, hrest]
      · simp only [if_neg hgo]

theorem quantified_congr {x : Singular} {part part' : Nat → Attempt Outcome}
    (hpart : ∀ cursor, Yields (part cursor) (s.Derives (.singular x) cursor) bad)
    (hsame : ∀ cursor, cursor ≤ s.input.length → part cursor = part' cursor)
    (quantifier : Quantifier) {cursor : Nat} (hc : cursor ≤ s.input.length) :
    s.quantified quantifier part cursor = s.quantified quantifier part' cursor := by
  unfold quantified
  cases quantifier with
  | one => exact hsame cursor hc
  | maybe => simp only [hsame cursor hc]
  | any => simp only [takeAll_congr hpart hsame hc]
  | many => simp only [takeAll_congr hpart hsame hc]

mutual

/-- A part does the same inside of the input if the rules it calls do. -/
theorem singular_congr (hs : s.rules.Sound) (hcall : s.SoundCalls call bad)
    (hsame : s.SameCalls call call') : ∀ (x : Singular), x.all s.rules.knows = true →
    ∀ cursor, cursor ≤ s.input.length → singular s call x cursor = singular s call' x cursor
  | .group alternatives, hknows, cursor, hc => by
    simp only [Singular.all] at hknows
    simp only [singular, alternation_congr hs hcall hsame alternatives hknows cursor hc]
  | .symbol name span, _, cursor, hc => by
    simp only [singular]
    by_cases hproduction : s.rules.isProduction name = true
    · rw [if_pos hproduction, if_pos hproduction, hsame name hproduction cursor hc]
    · rw [if_neg hproduction, if_neg hproduction]
  | .literal source matchers span, hknows, _, _ => by simp [Singular.all, RuleSet.knows] at hknows
  | .charset source matcher span, hknows, _, _ => by simp [Singular.all, RuleSet.knows] at hknows

theorem alternation_congr (hs : s.rules.Sound) (hcall : s.SoundCalls call bad)
    (hsame : s.SameCalls call call') : ∀ (alternatives : List (Alternative (Item Singular))),
    Alternation.all s.rules.knows alternatives = true → ∀ cursor, cursor ≤ s.input.length →
      alternation s call alternatives cursor = alternation s call' alternatives cursor
  | [], _, cursor, _ => by simp only [alternation]
  | a :: rest, hknows, cursor, hc => by
    simp only [Alternation.all, Bool.and_eq_true] at hknows
    simp only [alternation, alternative_congr hs hcall hsame a hknows.1 cursor hc,
      alternation_congr hs hcall hsame rest hknows.2 cursor hc]

theorem alternative_congr (hs : s.rules.Sound) (hcall : s.SoundCalls call bad)
    (hsame : s.SameCalls call call') : ∀ (a : Alternative (Item Singular)),
    Alternative.all s.rules.knows a = true → ∀ cursor, cursor ≤ s.input.length →
      alternative s call a cursor = alternative s call' a cursor
  | ⟨_, _, items, _⟩, hknows, cursor, hc => by
    simp only [Alternative.all] at hknows
    simp only [alternative]
    exact body_congr hs hcall hsame items hknows cursor hc

theorem body_congr (hs : s.rules.Sound) (hcall : s.SoundCalls call bad)
    (hsame : s.SameCalls call call') : ∀ (items : List (Item Singular)),
    Body.all s.rules.knows items = true → ∀ cursor, cursor ≤ s.input.length →
      body s call items cursor = body s call' items cursor
  | [], _, cursor, _ => by simp only [body]
  | i :: rest, hknows, cursor, hc => by
    simp only [Body.all, Bool.and_eq_true] at hknows
    simp only [body, ← item_congr hs hcall hsame i hknows.1 cursor hc]
    apply (item_sound hs hcall i hknows.1 cursor).bind_congr
    intro o ho
    cases o with
    | none => rfl
    | some m =>
      obtain ⟨hderives⟩ := ho
      have hbounds := hderives.bounds m rfl
      simp only [body_congr hs hcall hsame rest hknows.2 m.stop (by omega)]

theorem item_congr (hs : s.rules.Sound) (hcall : s.SoundCalls call bad)
    (hsame : s.SameCalls call call') : ∀ (i : Item Singular), Item.all s.rules.knows i = true →
    ∀ cursor, cursor ≤ s.input.length → item s call i cursor = item s call' i cursor
  | ⟨inner, quantifier⟩, hknows, cursor, hc => by
    simp only [Item.all] at hknows
    simp only [item]
    exact quantified_congr (singular_sound hs hcall inner hknows)
      (singular_congr hs hcall hsame inner hknows) quantifier hc

end

theorem choose_congr (hs : s.rules.Sound) (hcall : s.SoundCalls call bad)
    (hsame : s.SameCalls call call') (alternatives : Alternation)
    (hknows : Alternation.all s.rules.knows alternatives = true) {cursor : Nat}
    (hc : cursor ≤ s.input.length) : ∀ index,
    choose s call index alternatives cursor = choose s call' index alternatives cursor := by
  induction alternatives with
  | nil => exact fun index => rfl
  | cons a rest ih =>
    intro index
    simp only [Alternation.all, Bool.and_eq_true] at hknows
    simp only [choose, alternative_congr hs hcall hsame a hknows.1 cursor hc, ih hknows.2]

theorem expand_congr (hs : s.rules.Sound) (hcall : s.SoundCalls call bad)
    (hsame : s.SameCalls call call') (active : List Frame) {r : Rule}
    (hknows : Alternation.all s.rules.knows r.alternatives = true) {cursor : Nat}
    (hc : cursor ≤ s.input.length) :
    s.expand call active r cursor = s.expand call' active r cursor := by
  simp only [expand, choose_congr hs hcall hsame r.alternatives hknows hc]

end Congruence

/-- Whatever makes calls without a limit does what is done with room for all calls. The induction is
on the room that is left. -/
theorem Unlimited.eq_unlimited (hs : s.rules.Tagged s.variants)
    {call : List Frame → Text → Nat → Attempt Outcome} (h : s.Unlimited call) :
    ∀ {active : List Frame}, s.Stack (· ≤ s.input.length) active →
      s.SameCalls (s.unlimited active) (call active) := by
  intro active hactive
  induction hroom : s.capacity - active.length using Nat.strong_induction_on
    generalizing active with
  | _ room ih =>
    intro name hproduction cursor hc
    rw [unlimited_eq hactive hproduction hc, h.rule hactive hproduction hc]
    obtain ⟨r, hget, hkind⟩ := RuleSet.isProduction_iff.mp hproduction
    by_cases hframe : (⟨name, cursor⟩ : Frame) ∈ active
    · simp only [enter, hget, if_pos hframe]
    · have hpushed := hactive.push hframe hproduction hc
      have hheight := hpushed.length_le
      rw [List.length_cons] at hheight
      have hsame := ih _ (by rw [List.length_cons]; omega) hpushed rfl
      have hknows := hs.knows (RuleSet.mem_of_get? hget) hkind
      simp only [enter, hget, if_neg hframe]
      exact expand_congr hs.toSound (rule_sound hs _ _) hsame active hknows hc

end GrammarKit.Session
