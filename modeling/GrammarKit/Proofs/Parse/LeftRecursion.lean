import GrammarKit.Proofs.Parse.Composition
import Mathlib.Logic.Relation

/-!
Left recursion. What stands at the left end of a production can be called at the cursor where the
production itself was called, and so can what comes after parts that may match without getting
ahead. These calls make a relation of productions that is read off the rules alone. Main statement:
a parse that stops for lack of progress names a production on a cycle of this relation.
-/
namespace GrammarKit

/-- A part that may match without getting ahead. For a rule of characters that is a matter of its
words. -/
inductive RuleSet.MayStay (rs : RuleSet) : Phrase → Prop where
  | production {name : Text} {r : Rule} (hget : rs.get? name = some r)
      (hkind : r.kind = .production) (h : MayStay rs (.choice r.alternatives)) :
      MayStay rs (.rule name)
  | token {name : Text} (hlexical : rs.isProduction name = false) (h : Word rs (.rule name) []) :
      MayStay rs (.rule name)
  | choice {alternatives : Alternation} {a : Alternative (Item Singular)} (ha : a ∈ alternatives)
      (h : MayStay rs (.body a.body)) : MayStay rs (.choice alternatives)
  | bodyEnd : MayStay rs (.body [])
  | body {i : Item Singular} {rest : Body} (h : MayStay rs (.item i))
      (hrest : MayStay rs (.body rest)) : MayStay rs (.body (i :: rest))
  | one {x : Singular} (h : MayStay rs (.singular x)) : MayStay rs (.item ⟨x, .one⟩)
  | maybe {x : Singular} : MayStay rs (.item ⟨x, .maybe⟩)
  | any {x : Singular} : MayStay rs (.item ⟨x, .any⟩)
  | many {x : Singular} (h : MayStay rs (.singular x)) : MayStay rs (.item ⟨x, .many⟩)
  | row {x : Singular} : MayStay rs (.row x)
  | group {alternatives : Alternation} (h : MayStay rs (.choice alternatives)) :
      MayStay rs (.singular (.group alternatives))
  | symbol {name : Text} {span : Span} (h : MayStay rs (.rule name)) :
      MayStay rs (.singular (.symbol name span))

/-- A production stands in a part, at any depth of groups, with nothing before it but items that
may match without getting ahead. -/
inductive RuleSet.Opens (rs : RuleSet) (name : Text) : Phrase → Prop where
  | choice {alternatives : Alternation} {a : Alternative (Item Singular)} (ha : a ∈ alternatives)
      (h : Opens rs name (.body a.body)) : Opens rs name (.choice alternatives)
  | first {i : Item Singular} {rest : Body} (h : Opens rs name (.item i)) :
      Opens rs name (.body (i :: rest))
  | later {i : Item Singular} {rest : Body} (hi : rs.MayStay (.item i))
      (h : Opens rs name (.body rest)) : Opens rs name (.body (i :: rest))
  | item {x : Singular} {quantifier : Quantifier} (h : Opens rs name (.singular x)) :
      Opens rs name (.item ⟨x, quantifier⟩)
  | group {alternatives : Alternation} (h : Opens rs name (.choice alternatives)) :
      Opens rs name (.singular (.group alternatives))
  | symbol {span : Span} (hproduction : rs.isProduction name = true) :
      Opens rs name (.singular (.symbol name span))

/-- The second production can be called where the first one is called. -/
def RuleSet.LeftDepends (rs : RuleSet) (first second : Text) : Prop :=
  ∃ r, rs.get? first = some r ∧ r.kind = .production ∧ rs.Opens second (.choice r.alternatives)

theorem RuleSet.MayStay.choice_cons {rs : RuleSet} (a : Alternative (Item Singular))
    {rest : Alternation} (h : rs.MayStay (.choice rest)) : rs.MayStay (.choice (a :: rest)) := by
  cases h with
  | choice ha h => exact .choice (List.mem_cons_of_mem a ha) h

theorem RuleSet.Opens.choice_cons {rs : RuleSet} {name : Text} (a : Alternative (Item Singular))
    {rest : Alternation} (h : rs.Opens name (.choice rest)) :
    rs.Opens name (.choice (a :: rest)) := by
  cases h with
  | choice ha h => exact .choice (List.mem_cons_of_mem a ha) h

/-- What takes nothing from a text is the empty word. -/
theorem Text.LongestWord.nil_word {rs : RuleSet} {t name : Text} {cursor : Nat}
    (h : t.LongestWord rs name cursor cursor) : Word rs (.rule name) [] := by
  obtain ⟨w, hspell, hw⟩ := h.1
  obtain ⟨n, hn, hread⟩ := Text.spells_drop.mp hspell
  cases hread with
  | nil => exact hw
  | cons hfirst _ =>
    have hwidth := Text.codePoint?_width hfirst
    omega

namespace Session

open Attempt

variable {s : Session}

theorem Takes.nil_word {name : Text} {cursor : Nat} {token : Token}
    (h : s.Takes name cursor token cursor) : Word s.rules (.rule name) [] := by
  cases hinput : s.input with
  | text t => exact ((takes_text hinput).mp h).1.nil_word
  | tokens ts =>
    obtain ⟨-, -, hstop⟩ := (takes_tokens hinput).mp h
    omega

/-- A row of matches that does not get ahead has a first match that does not. -/
theorem Derivation.stays_of_row {x : Singular} {cursor : Nat} {m n : Match}
    (h : s.Derivation (.row x) cursor (some n)) (hstop : n.stop = cursor)
    (hfirst : s.Derivation (.singular x) cursor (some m)) : m.stop = cursor := by
  cases h with
  | rowEnd hnone => cases hfirst.unique hnone
  | rowStays h _ =>
    cases hfirst.unique h
    exact hstop
  | @rowGoes _ _ m' n' h hlt hrest =>
    have hbounds := hrest.bounds n' rfl
    simp only at hstop
    omega

/-- What matches without getting ahead may do so. -/
theorem Derivation.mayStay {p : Phrase} {cursor : Nat} {o : Outcome}
    (h : s.Derivation p cursor o) :
    (∀ name, p = .rule name → s.rules.isProduction name = true) →
      ∀ m, o = some m → m.stop = cursor → s.rules.MayStay p := by
  induction h with
  | @rule name r before after a cursor m span hget hsplit hbefore h hspan ihbefore ih =>
    intro hknown m' hm' hstop
    cases hm'
    obtain ⟨r', hget', hkind⟩ := RuleSet.isProduction_iff.mp (hknown name rfl)
    rw [hget] at hget'
    cases hget'
    have ha : a ∈ r.alternatives := by simp [hsplit]
    exact .production hget hkind (.choice ha (ih nofun m rfl hstop))
  | ruleFails | choiceFails | bodyFails | bodyBreaks | manyFails | groupFails | callFails
  | tokenFails => exact fun _ => nofun
  | choiceFirst h ih => exact fun _ m hm hstop => .choice List.mem_cons_self (ih nofun m hm hstop)
  | choiceNext h hrest ih ihrest =>
    exact fun _ m hm hstop => (ihrest nofun m hm hstop).choice_cons _
  | bodyEnd => exact fun _ _ _ _ => .bodyEnd
  | @bodyGoes i rest cursor m n h hrest ih ihrest =>
    intro _ m' hm' hstop
    cases hm'
    have hfirst := h.bounds m rfl
    have hlast := hrest.bounds n rfl
    simp only at hstop
    have hmiddle : m.stop = cursor := by omega
    exact .body (ih nofun m rfl hmiddle) (ihrest nofun n rfl (by omega))
  | one h ih => exact fun _ m hm hstop => .one (ih nofun m hm hstop)
  | absent | present => exact fun _ _ _ _ => .maybe
  | any => exact fun _ _ _ _ => .any
  | many hfirst h ihfirst ih =>
    intro _ n hn hstop
    subst hn
    exact .many (ihfirst nofun _ rfl (h.stays_of_row hstop hfirst))
  | rowEnd | rowStays | rowGoes => exact fun _ _ _ _ => .row
  | @group alternatives cursor stop m h hskip ih =>
    intro _ m' hm' hstop
    cases hm'
    have hbounds := h.bounds m rfl
    have hafter := hskip.bounds
    simp only at hstop
    exact .group (ih nofun m rfl (by omega))
  | @call name span cursor stop m hproduction h hskip ih =>
    intro _ m' hm' hstop
    cases hm'
    have hbounds := h.bounds m rfl
    have hafter := hskip.bounds
    simp only at hstop
    have hknown : ∀ other, Phrase.rule name = .rule other →
        s.rules.isProduction other = true := by
      intro other hother
      cases hother
      exact hproduction
    exact .symbol (ih hknown m rfl (by omega))
  | @token name span cursor middle stop token hlexical h hskip =>
    intro _ m' hm' hstop
    cases hm'
    have hbounds := h.bounds
    have hafter := hskip.bounds
    simp only at hstop
    obtain rfl : middle = cursor := by omega
    exact .symbol (.token hlexical h.nil_word)

/-- How a part halts at a cursor: some production is called there or farther on and halts, and if
it is called there it stands at the left end of the part. -/
def HaltsBy (s : Session) (reason : Text → Nat → Halt → Prop) (p : Phrase) (cursor : Nat)
    (halt : Halt) : Prop :=
  ∃ name place, s.rules.isProduction name = true ∧ cursor ≤ place ∧
    (place = cursor → s.rules.Opens name p) ∧ reason name place halt

variable {reason : Text → Nat → Halt → Prop}

/-- A part halts as another one does at the same cursor, if what stands at the left end of this one
stands at its own. -/
theorem HaltsBy.imp {p q : Phrase} {cursor : Nat} {halt : Halt}
    (h : s.HaltsBy reason p cursor halt)
    (hopens : ∀ name, s.rules.Opens name p → s.rules.Opens name q) :
    s.HaltsBy reason q cursor halt := by
  obtain ⟨name, place, hproduction, hle, hplace, hreason⟩ := h
  exact ⟨name, place, hproduction, hle, fun heq => hopens name (hplace heq), hreason⟩

/-- What halts beyond a cursor can be put down to any part at the cursor. -/
theorem HaltsBy.of_lt {p q : Phrase} {cursor middle : Nat} {halt : Halt}
    (h : s.HaltsBy reason p middle halt) (hlt : cursor < middle) :
    s.HaltsBy reason q cursor halt := by
  obtain ⟨name, place, hproduction, hle, -, hreason⟩ := h
  have hbeyond : place ≠ cursor := by omega
  exact ⟨name, place, hproduction, by omega, fun heq => absurd heq hbeyond, hreason⟩

section Parts

variable {call : Text → Nat → Attempt Outcome}

def CallsHalt (s : Session) (reason : Text → Nat → Halt → Prop)
    (call : Text → Nat → Attempt Outcome) : Prop :=
  ∀ name, s.rules.isProduction name = true → ∀ cursor,
    Yields (call name cursor) (s.Derives (.rule name) cursor) (reason name cursor)

theorem CallsHalt.sound (h : s.CallsHalt reason call) : s.SoundCalls call fun _ => True :=
  fun name hproduction cursor => (h name hproduction cursor).weaken fun _ _ => trivial

theorem takeAll_halts {x : Singular} {part : Nat → Attempt Outcome}
    (hpart : ∀ cursor, Yields (part cursor) (fun _ => True)
      (s.HaltsBy reason (.singular x) cursor)) (length cursor : Nat) :
    Yields (takeAll length part cursor) (fun _ => True)
      (s.HaltsBy reason (.singular x) cursor) := by
  induction hleft : length - cursor using Nat.strong_induction_on generalizing cursor with
  | _ left ih =>
    unfold takeAll
    apply record_bind
    apply (hpart cursor).bind
    intro o _
    cases o with
    | none => exact Yields.of_pure trivial
    | some m =>
      by_cases hgo : cursor < m.stop ∧ cursor < length
      · simp only [if_pos hgo]
        have hrest := ih (length - m.stop) (by omega) m.stop rfl
        apply (hrest.weaken fun _ halts => halts.of_lt hgo.1).bind
        exact fun _ _ => Yields.of_pure trivial
      · simp only [if_neg hgo]
        exact Yields.of_pure trivial

theorem quantified_halts {x : Singular} {part : Nat → Attempt Outcome}
    (hpart : ∀ cursor, Yields (part cursor) (fun _ => True)
      (s.HaltsBy reason (.singular x) cursor)) (quantifier : Quantifier) (cursor : Nat) :
    Yields (s.quantified quantifier part cursor) (fun _ => True)
      (s.HaltsBy reason (.singular x) cursor) := by
  unfold quantified
  cases quantifier with
  | one => exact hpart cursor
  | maybe =>
    apply (hpart cursor).bind
    intro o _
    cases o with
    | none => exact Yields.of_pure trivial
    | some m => exact Yields.of_pure trivial
  | any => exact (takeAll_halts hpart s.length cursor).bind fun _ _ => Yields.of_pure trivial
  | many => exact (takeAll_halts hpart s.length cursor).bind fun _ _ => Yields.of_pure trivial

theorem settle_halts (hs : s.rules.Sound) (o : Outcome) {bad : Halt → Prop} :
    Yields (s.settle o) (fun _ => True) bad := by
  cases o with
  | none => exact Yields.of_pure trivial
  | some m => exact settle_some hs m fun _ _ => trivial

mutual

/-- A part halts by a call of a production that stands in it. -/
theorem singular_halts (hs : s.rules.Sound) (hcall : s.CallsHalt reason call) :
    ∀ (x : Singular), x.all s.rules.knows = true → ∀ cursor,
      Yields (singular s call x cursor) (fun _ => True) (s.HaltsBy reason (.singular x) cursor)
  | .group alternatives, hknows, cursor => by
    simp only [Singular.all] at hknows
    simp only [singular]
    apply record_bind
    have hgroup := alternation_halts hs hcall alternatives hknows cursor
    apply (hgroup.weaken fun _ halts => halts.imp fun _ => RuleSet.Opens.group).bind
    exact fun o _ => settle_halts hs o
  | .symbol name span, hknows, cursor => by
    simp only [Singular.all, RuleSet.knows] at hknows
    simp only [singular]
    by_cases hproduction : s.rules.isProduction name = true
    · rw [if_pos hproduction]
      have hhalts : ∀ halt, reason name cursor halt →
          s.HaltsBy reason (.singular (.symbol name span)) cursor halt :=
        fun _ hreason => ⟨name, cursor, hproduction, Nat.le_refl _,
          fun _ => .symbol hproduction, hreason⟩
      apply ((hcall name hproduction cursor).weaken hhalts).bind
      exact fun o _ => settle_halts hs o
    · rw [if_neg hproduction]
      have hlexical : s.rules.isProduction name = false := by simpa using hproduction
      exact (takeToken_sound hs hknows hlexical span cursor).imp fun _ _ => trivial
  | .literal source matchers span, hknows, _ => by simp [Singular.all, RuleSet.knows] at hknows
  | .charset source matcher span, hknows, _ => by simp [Singular.all, RuleSet.knows] at hknows

theorem alternation_halts (hs : s.rules.Sound) (hcall : s.CallsHalt reason call) :
    ∀ (alternatives : List (Alternative (Item Singular))),
      Alternation.all s.rules.knows alternatives = true → ∀ cursor,
      Yields (alternation s call alternatives cursor) (fun _ => True)
        (s.HaltsBy reason (.choice alternatives) cursor)
  | [], _, cursor => by
    simp only [alternation]
    exact Yields.of_pure trivial
  | a :: rest, hknows, cursor => by
    simp only [Alternation.all, Bool.and_eq_true] at hknows
    simp only [alternation]
    have hfirst := alternative_halts hs hcall a hknows.1 cursor
    apply (hfirst.weaken fun _ halts =>
      halts.imp fun _ => RuleSet.Opens.choice List.mem_cons_self).bind
    intro o _
    cases o with
    | some m => exact Yields.of_pure trivial
    | none =>
      have hrest := alternation_halts hs hcall rest hknows.2 cursor
      exact hrest.weaken fun _ halts => halts.imp fun _ => RuleSet.Opens.choice_cons a

theorem alternative_halts (hs : s.rules.Sound) (hcall : s.CallsHalt reason call) :
    ∀ (a : Alternative (Item Singular)), Alternative.all s.rules.knows a = true → ∀ cursor,
      Yields (alternative s call a cursor) (fun _ => True)
        (s.HaltsBy reason (.body a.body) cursor)
  | ⟨_, _, items, _⟩, hknows, cursor => by
    simp only [Alternative.all] at hknows
    simp only [alternative]
    exact body_halts hs hcall items hknows cursor

theorem body_halts (hs : s.rules.Sound) (hcall : s.CallsHalt reason call) :
    ∀ (items : List (Item Singular)), Body.all s.rules.knows items = true → ∀ cursor,
      Yields (body s call items cursor) (fun _ => True) (s.HaltsBy reason (.body items) cursor)
  | [], _, cursor => by
    simp only [body]
    exact Yields.of_pure trivial
  | i :: rest, hknows, cursor => by
    simp only [Body.all, Bool.and_eq_true] at hknows
    simp only [body]
    have hfirst := (item_halts hs hcall i hknows.1 cursor).and
      (item_sound hs hcall.sound i hknows.1 cursor)
    apply (hfirst.weaken fun _ halts => halts.imp fun _ => RuleSet.Opens.first).bind
    intro o ho
    obtain ⟨h⟩ := ho.2
    cases o with
    | none => exact Yields.of_pure trivial
    | some m =>
      have hbounds := h.bounds m rfl
      have hrest := body_halts hs hcall rest hknows.2 m.stop
      -- The rest of the body is tried at the cursor itself only if the item did not get ahead.
      have hhalts : ∀ halt, s.HaltsBy reason (.body rest) m.stop halt →
          s.HaltsBy reason (.body (i :: rest)) cursor halt := by
        intro halt halts
        by_cases hstop : m.stop = cursor
        · rw [hstop] at halts
          exact halts.imp fun _ => RuleSet.Opens.later (h.mayStay nofun m rfl hstop)
        · exact halts.of_lt (by omega)
      apply (hrest.weaken hhalts).bind
      intro o' _
      cases o' with
      | none => exact Yields.of_pure trivial
      | some n => exact Yields.of_pure trivial

theorem item_halts (hs : s.rules.Sound) (hcall : s.CallsHalt reason call) :
    ∀ (i : Item Singular), Item.all s.rules.knows i = true → ∀ cursor,
      Yields (item s call i cursor) (fun _ => True) (s.HaltsBy reason (.item i) cursor)
  | ⟨inner, quantifier⟩, hknows, cursor => by
    simp only [Item.all] at hknows
    simp only [item]
    have hitem := quantified_halts (singular_halts hs hcall inner hknows) quantifier cursor
    exact hitem.weaken fun _ halts => halts.imp fun _ => RuleSet.Opens.item

end

theorem choose_halts (hs : s.rules.Sound) (hcall : s.CallsHalt reason call)
    (alternatives : Alternation) (hknows : Alternation.all s.rules.knows alternatives = true)
    (cursor : Nat) : ∀ index, Yields (choose s call index alternatives cursor) (fun _ => True)
      (s.HaltsBy reason (.choice alternatives) cursor) := by
  induction alternatives with
  | nil => exact fun index => Yields.of_pure trivial
  | cons a rest ih =>
    intro index
    simp only [Alternation.all, Bool.and_eq_true] at hknows
    simp only [choose]
    have hfirst := alternative_halts hs hcall a hknows.1 cursor
    apply (hfirst.weaken fun _ halts =>
      halts.imp fun _ => RuleSet.Opens.choice List.mem_cons_self).bind
    intro o _
    cases o with
    | some m => exact Yields.of_pure trivial
    | none =>
      have hrest := ih hknows.2 (index + 1)
      exact hrest.weaken fun _ halts => halts.imp fun _ => RuleSet.Opens.choice_cons a

theorem expand_halts (hs : s.rules.Sound) (hcall : s.CallsHalt reason call) (active : List Frame)
    {r : Rule} (hknows : Alternation.all s.rules.knows r.alternatives = true) (cursor : Nat) :
    Yields (s.expand call active r cursor) (fun _ => True)
      (s.HaltsBy reason (.choice r.alternatives) cursor) := by
  apply record_bind
  apply (choose_halts hs hcall r.alternatives hknows cursor 0).bind
  intro o _
  cases o with
  | none => exact record_bind (Yields.of_pure trivial)
  | some chosen => exact record_bind (Yields.of_pure trivial)

end Parts

/-- Where a lack of progress comes from, seen from a call of a production inside of active calls:
the call that came back is not before the cursor, at the cursor itself it is reached from the
production by what stands at the left, and unless it was active before, it is on a cycle. -/
def ComesBack (s : Session) (active : List Frame) (name : Text) (cursor : Nat) (halt : Halt) :
    Prop :=
  ∀ frame, halt = .noProgress frame → cursor ≤ frame.cursor ∧
    (frame.cursor = cursor → Relation.ReflTransGen s.rules.LeftDepends name frame.rule) ∧
    (frame ∉ active → Relation.TransGen s.rules.LeftDepends frame.rule frame.rule)

/-- What is called from the alternatives of a production comes back as the production does. -/
theorem HaltsBy.comesBack {active : List Frame} {r : Rule} {name : Text} {cursor : Nat}
    {halt : Halt} (hget : s.rules.get? name = some r) (hkind : r.kind = .production)
    (h : s.HaltsBy (s.ComesBack (⟨name, cursor⟩ :: active)) (.choice r.alternatives) cursor halt) :
    s.ComesBack active name cursor halt := by
  obtain ⟨other, place, -, hle, hopens, hback⟩ := h
  intro frame hframe
  obtain ⟨hplace, hreach, hcycle⟩ := hback frame hframe
  have hdepends : frame.cursor = cursor → s.rules.LeftDepends name other ∧
      Relation.ReflTransGen s.rules.LeftDepends other frame.rule := by
    intro heq
    exact ⟨⟨r, hget, hkind, hopens (by omega)⟩, hreach (by omega)⟩
  refine ⟨by omega, ?_, ?_⟩
  · intro heq
    obtain ⟨hfirst, hrest⟩ := hdepends heq
    exact .head hfirst hrest
  · intro hnew
    by_cases hself : frame = ⟨name, cursor⟩
    · subst hself
      obtain ⟨hfirst, hrest⟩ := hdepends rfl
      exact .head' hfirst hrest
    · exact hcycle fun hmem => (List.mem_cons.mp hmem).elim hself hnew

/-- A call of a production that is active at the cursor comes back at once. -/
theorem comesBack_of_mem {active : List Frame} {name : Text} {cursor : Nat}
    (h : (⟨name, cursor⟩ : Frame) ∈ active) :
    s.ComesBack active name cursor (.noProgress ⟨name, cursor⟩) := by
  intro frame hframe
  cases hframe
  exact ⟨Nat.le_refl _, fun _ => .refl, fun hnew => absurd h hnew⟩

theorem rule_comesBack (hs : s.rules.Tagged s.variants) (limit : Nat) :
    ∀ active, s.CallsHalt (s.ComesBack active) (s.rule limit active) := by
  induction limit with
  | zero =>
    intro active name hproduction cursor
    obtain ⟨r, hget, -⟩ := RuleSet.isProduction_iff.mp hproduction
    simp only [rule, enter, hget]
    by_cases hactive : (⟨name, cursor⟩ : Frame) ∈ active
    · rw [if_pos hactive]
      exact Yields.of_throw (comesBack_of_mem hactive)
    · rw [if_neg hactive]
      apply Yields.of_throw
      intro frame hframe
      cases hframe
  | succ limit ih =>
    intro active name hproduction cursor
    obtain ⟨r, hget, hkind⟩ := RuleSet.isProduction_iff.mp hproduction
    have hsound := rule_sound hs (limit + 1) active name hproduction cursor
    have hhalts : Yields (s.rule (limit + 1) active name cursor) (fun _ => True)
        (s.ComesBack active name cursor) := by
      simp only [rule, enter, hget]
      by_cases hactive : (⟨name, cursor⟩ : Frame) ∈ active
      · rw [if_pos hactive]
        exact Yields.of_throw (comesBack_of_mem hactive)
      · rw [if_neg hactive]
        have hknows := hs.knows (RuleSet.mem_of_get? hget) hkind
        apply (expand_halts hs.toSound (ih _) active hknows cursor).weaken
        exact fun halt halts => halts.comesBack hget hkind
    exact (hhalts.and hsound).imp fun _ h => h.2

end Session

/-- A parse that stops for lack of progress names a production on a cycle of left dependence. -/
theorem Parser.cycle_of_noProgress {p : Parser} (hp : p.rules.Tagged p.variants) {limit : Nat}
    {start : Text} {input : Input} {allowTrailing : Bool} {position : Int} {rule : Text}
    (h : (p.parse limit start input allowTrailing).1 =
      .error (.parse (.noProgress position rule))) :
    Relation.TransGen p.rules.LeftDepends rule rule := by
  unfold parse at h
  by_cases hstart : p.rules.isProduction start = true
  · rw [if_pos hstart] at h
    obtain ⟨cursor, hskip, -⟩ := (p.session input).skip_cases hp.toSound 0
    have hrule := (p.session input).rule_comesBack hp limit [] start hstart cursor
    rw [run_attempt hskip] at h
    generalize hrun : ((p.session input).rule limit [] start cursor).run.run Progress.initial =
      run at h
    obtain ⟨halt | o, progress⟩ := run
    · cases halt with
      | noProgress frame =>
        obtain ⟨-, -, hcycle⟩ := hrule.failure hrun frame rfl
        cases h
        exact hcycle (by simp)
      | tooDeep frame => cases h
      | fault f => cases h
    · cases o with
      | none => cases h
      | some m =>
        obtain ⟨-, ⟨-, -, -, he⟩ | ⟨-, he⟩⟩ := judge_eq_error h
        · cases he
        · cases he
  · rw [if_neg hstart] at h
    cases h

namespace Grammar

/-- Only left recursion makes a parse stop for lack of progress: the rule that is named lies on a
cycle of left dependence, and without a cycle no parse stops in this way. -/
theorem noProgress_leftRecursive {source whitespaceName : Text} {g : Grammar}
    (hg : compile source whitespaceName = .ok g) :
    (∀ limit start input allowTrailing position rule,
      (g.parser.parse limit start input allowTrailing).1 =
          .error (.parse (.noProgress position rule)) →
        Relation.TransGen g.rules.LeftDepends rule rule) ∧
    ((∀ name, ¬ Relation.TransGen g.rules.LeftDepends name name) →
      ∀ limit start input allowTrailing position rule,
        (g.parser.parse limit start input allowTrailing).1 ≠
          .error (.parse (.noProgress position rule))) := by
  have hcompiled := compiled_of_compile hg
  have hcycle : ∀ limit start input allowTrailing position rule,
      (g.parser.parse limit start input allowTrailing).1 =
          .error (.parse (.noProgress position rule)) →
        Relation.TransGen g.rules.LeftDepends rule rule := by
    intro limit start input allowTrailing position rule h
    rw [← hcompiled.parserRules]
    exact Parser.cycle_of_noProgress hcompiled.tagged h
  refine ⟨hcycle, ?_⟩
  intro hacyclic limit start input allowTrailing position rule h
  exact hacyclic rule (hcycle limit start input allowTrailing position rule h)

def signedLists : Text :=
  Text.ofString "list ::= sign? items; sign ::= '-'*; items ::= (sign list) | 'x';"

/-- On `x` the rule of lists is called again where it was called, after two signs that take
nothing, and so it depends on itself. -/
theorem noProgress_leftRecursive_signedLists :
    ∃ g, compile signedLists (Text.ofString "_") = .ok g ∧
      (g.parser.parse 9 (Text.ofString "list") (.text (Text.ofString "x")) false).1 =
        .error (.parse (.noProgress 0 (Text.ofString "list"))) ∧
      Relation.TransGen g.rules.LeftDepends (Text.ofString "list") (Text.ofString "list") := by
  have htest : (compile signedLists (Text.ofString "_")).toOption.any (fun g =>
      match (g.parser.parse 9 (Text.ofString "list") (.text (Text.ofString "x")) false).1 with
      | .error (.parse e) => decide (e = .noProgress 0 (Text.ofString "list"))
      | _ => false) = true := by
    decide +kernel
  obtain ⟨g, hg, htest⟩ := exists_compile htest
  have hparse : (g.parser.parse 9 (Text.ofString "list") (.text (Text.ofString "x")) false).1 =
      .error (.parse (.noProgress 0 (Text.ofString "list"))) := by
    split at htest
    · next e he => rw [he, of_decide_eq_true htest]
    · cases htest
  exact ⟨g, hg, hparse, (noProgress_leftRecursive hg).1 _ _ _ _ _ _ hparse⟩

end Grammar

end GrammarKit
