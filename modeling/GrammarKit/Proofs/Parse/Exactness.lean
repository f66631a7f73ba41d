import GrammarKit.Proofs.Parse.Soundness

/-!
A derivation says what the parser answers, if no active call has a derivation of the same size or a
smaller one. A smallest derivation of a rule at a cursor never comes back to the rule at this
cursor, so the active calls get in the way of parts without a derivation only. Main statement: the
parser answers exactly what has a derivation, and where nothing has one it stops for lack of
progress.
-/
namespace GrammarKit

def Phrase.isKnown (rs : RuleSet) : Phrase → Bool
  | .rule name => rs.isProduction name
  | .choice alternatives => Alternation.all rs.knows alternatives
  | .body items => Body.all rs.knows items
  | .item i => Item.all rs.knows i
  | .row x => Singular.all rs.knows x
  | .singular x => Singular.all rs.knows x

namespace Session

open Attempt

variable {s : Session}

/-- The parser answers an outcome for a part at a cursor, unless it gets too deep. -/
def Finds (s : Session) (call : Text → Nat → Attempt Outcome) : Phrase → Nat → Outcome → Prop
  | .rule name, cursor, o => Yields (call name cursor) (· = o) Halt.IsTooDeep
  | .choice alternatives, cursor, o =>
    Yields (alternation s call alternatives cursor) (· = o) Halt.IsTooDeep
  | .body items, cursor, o => Yields (body s call items cursor) (· = o) Halt.IsTooDeep
  | .item i, cursor, o => Yields (item s call i cursor) (· = o) Halt.IsTooDeep
  | .row x, cursor, o =>
    Yields (takeAll s.length (singular s call x) cursor) (fun r => some r.2 = o) Halt.IsTooDeep
  | .singular x, cursor, o => Yields (singular s call x cursor) (· = o) Halt.IsTooDeep

section Completeness

variable {call : Text → Nat → Attempt Outcome} {cursor : Nat}

theorem alternative_finds {a : Alternative (Item Singular)} {o : Outcome}
    (h : s.Finds call (.body a.body) cursor o) :
    Yields (alternative s call a cursor) (· = o) Halt.IsTooDeep := by
  obtain ⟨doc, name, items, span⟩ := a
  simp only [alternative]
  exact h

theorem choice_finds_first {a : Alternative (Item Singular)} {rest : Alternation} {m : Match}
    (h : s.Finds call (.body a.body) cursor (some m)) :
    s.Finds call (.choice (a :: rest)) cursor (some m) := by
  simp only [Finds, alternation]
  refine (alternative_finds h).bind fun o ho => ?_
  subst ho
  exact Yields.of_pure rfl

theorem choice_finds_next {a : Alternative (Item Singular)} {rest : Alternation} {o : Outcome}
    (h : s.Finds call (.body a.body) cursor none) (hrest : s.Finds call (.choice rest) cursor o) :
    s.Finds call (.choice (a :: rest)) cursor o := by
  simp only [Finds, alternation]
  refine (alternative_finds h).bind fun o' ho => ?_
  subst ho
  exact hrest

theorem body_finds_none {i : Item Singular} {rest : Body}
    (h : s.Finds call (.item i) cursor none) : s.Finds call (.body (i :: rest)) cursor none := by
  simp only [Finds, body]
  refine Yields.bind h fun o ho => ?_
  subst ho
  exact Yields.of_pure rfl

theorem body_finds_rest {i : Item Singular} {rest : Body} {m : Match} {o : Outcome}
    (h : s.Finds call (.item i) cursor (some m)) (hrest : s.Finds call (.body rest) m.stop o) :
    s.Finds call (.body (i :: rest)) cursor
      (o.map fun n => ⟨n.stop, m.children ++ n.children⟩) := by
  simp only [Finds, body]
  refine Yields.bind h fun o' ho => ?_
  subst ho
  refine Yields.bind hrest fun o' ho => ?_
  subst ho
  cases o' with
  | none => exact Yields.of_pure rfl
  | some n => exact Yields.of_pure rfl

theorem maybe_finds {x : Singular} {o : Outcome} (h : s.Finds call (.singular x) cursor o) :
    s.Finds call (.item ⟨x, .maybe⟩) cursor (some (o.getD ⟨cursor, []⟩)) := by
  simp only [Finds, item, quantified]
  refine Yields.bind h fun o' ho => ?_
  subst ho
  cases o' with
  | none => exact Yields.of_pure rfl
  | some m => exact Yields.of_pure rfl

theorem any_finds {x : Singular} {o : Outcome} (h : s.Finds call (.row x) cursor o) :
    s.Finds call (.item ⟨x, .any⟩) cursor o := by
  simp only [Finds, item, quantified]
  refine Yields.bind h fun r hr => ?_
  exact Yields.of_pure hr

theorem row_finds_end {x : Singular} (h : s.Finds call (.singular x) cursor none) :
    Yields (takeAll s.length (singular s call x) cursor) (· = (0, ⟨cursor, []⟩))
      Halt.IsTooDeep := by
  unfold takeAll
  refine record_bind (Yields.bind h fun o ho => ?_)
  subst ho
  exact Yields.of_pure rfl

theorem many_finds_none {x : Singular} (h : s.Finds call (.singular x) cursor none) :
    s.Finds call (.item ⟨x, .many⟩) cursor none := by
  simp only [Finds, item, quantified]
  refine (row_finds_end h).bind fun r hr => ?_
  subst hr
  exact Yields.of_pure rfl

/-- A row whose first part matches counts it. -/
theorem row_counts {x : Singular} {m : Match} (h : s.Finds call (.singular x) cursor (some m))
    {o : Outcome} (hrow : s.Finds call (.row x) cursor o) :
    Yields (takeAll s.length (singular s call x) cursor) (fun r => some r.2 = o ∧ r.1 ≠ 0)
      Halt.IsTooDeep := by
  have hcount : Yields (takeAll s.length (singular s call x) cursor) (fun r => r.1 ≠ 0)
      (fun _ => True) := by
    unfold takeAll
    refine record_bind ((Yields.weaken h fun _ _ => trivial).bind fun o' ho => ?_)
    subst ho
    simp only
    split
    · exact (Yields.of_true _).bind fun r _ => Yields.of_pure (Nat.succ_ne_zero r.1)
    · exact Yields.of_pure Nat.one_ne_zero
  exact Yields.and hrow hcount

theorem many_finds {x : Singular} {m : Match} (h : s.Finds call (.singular x) cursor (some m))
    {o : Outcome} (hrow : s.Finds call (.row x) cursor o) :
    s.Finds call (.item ⟨x, .many⟩) cursor o := by
  simp only [Finds, item, quantified]
  refine (row_counts h hrow).bind fun r hr => ?_
  rw [if_neg hr.2]
  exact Yields.of_pure hr.1

theorem row_finds_last {x : Singular} {m : Match} (h : s.Finds call (.singular x) cursor (some m))
    (hstop : ¬ cursor < m.stop) : s.Finds call (.row x) cursor (some m) := by
  simp only [Finds]
  unfold takeAll
  refine record_bind (Yields.bind h fun o ho => ?_)
  subst ho
  simp only
  rw [if_neg fun hlt => hstop hlt.1]
  exact Yields.of_pure rfl

theorem row_finds_more {x : Singular} {m n : Match}
    (h : s.Finds call (.singular x) cursor (some m)) (hlt : cursor < m.stop)
    (hinput : cursor < s.length) (hrest : s.Finds call (.row x) m.stop (some n)) :
    s.Finds call (.row x) cursor (some ⟨n.stop, m.children ++ n.children⟩) := by
  simp only [Finds]
  unfold takeAll
  refine record_bind (Yields.bind h fun o ho => ?_)
  subst ho
  simp only
  rw [if_pos ⟨hlt, hinput⟩]
  refine Yields.bind hrest fun r hr => ?_
  cases hr
  exact Yields.of_pure rfl

theorem settle_finds (hs : s.rules.Sound) {m : Match} {stop : Nat} (hskip : s.Skips m.stop stop) :
    Yields (s.settle (some m)) (· = some ⟨stop, m.children⟩) Halt.IsTooDeep :=
  settle_some hs m fun _ hskip' => by rw [hskip.unique hskip']

theorem token_finds (hs : s.rules.Sound) {name : Text} (hknown : s.rules.contains name = true)
    (hlexical : s.rules.isProduction name = false) {span : Span} {o : Outcome}
    (h : s.Derivation (.singular (.symbol name span)) cursor o) :
    s.Finds call (.singular (.symbol name span)) cursor o := by
  simp only [Finds, singular, hlexical, Bool.false_eq_true, if_false]
  refine (takeToken_sound hs hknown hlexical span cursor).imp fun o' ho => ?_
  obtain ⟨h'⟩ := ho
  exact h'.unique h

/-- What has a derivation is found, if this is so for the calls of rules with smaller
derivations. -/
theorem Derivation.finds (hs : s.rules.Sound) {size : Nat}
    (hcall : ∀ {name cursor o} (h : s.Derivation (.rule name) cursor o), sizeOf h < size →
      s.rules.isProduction name = true → Yields (call name cursor) (· = o) Halt.IsTooDeep)
    {p : Phrase} {o : Outcome} (h : s.Derivation p cursor o) :
    sizeOf h < size → p.isKnown s.rules = true → s.Finds call p cursor o := by
  induction h with
  | rule hget hsplit hbefore h hspan => exact hcall (.rule hget hsplit hbefore h hspan)
  | ruleFails hget h => exact hcall (.ruleFails hget h)
  | choiceFails =>
    intro _ _
    simp only [Finds, alternation]
    exact Yields.of_pure rfl
  | choiceFirst h ih =>
    intro hsize hknows
    simp only [choiceFirst.sizeOf_spec] at hsize
    simp only [Phrase.isKnown, Alternation.all, Alternative.all_eq, Bool.and_eq_true] at hknows ih
    exact choice_finds_first (ih (by omega) hknows.1)
  | choiceNext h hrest ih ihrest =>
    intro hsize hknows
    simp only [choiceNext.sizeOf_spec] at hsize
    simp only [Phrase.isKnown, Alternation.all, Alternative.all_eq, Bool.and_eq_true]
      at hknows ih ihrest
    exact choice_finds_next (ih (by omega) hknows.1) (ihrest (by omega) hknows.2)
  | bodyEnd =>
    intro _ _
    simp only [Finds, body]
    exact Yields.of_pure rfl
  | bodyFails h ih =>
    intro hsize hknows
    simp only [bodyFails.sizeOf_spec] at hsize
    simp only [Phrase.isKnown, Body.all, Bool.and_eq_true] at hknows ih
    exact body_finds_none (ih (by omega) hknows.1)
  | bodyBreaks h hrest ih ihrest =>
    intro hsize hknows
    simp only [bodyBreaks.sizeOf_spec] at hsize
    simp only [Phrase.isKnown, Body.all, Bool.and_eq_true] at hknows ih ihrest
    exact body_finds_rest (ih (by omega) hknows.1) (ihrest (by omega) hknows.2)
  | bodyGoes h hrest ih ihrest =>
    intro hsize hknows
    simp only [bodyGoes.sizeOf_spec] at hsize
    simp only [Phrase.isKnown, Body.all, Bool.and_eq_true] at hknows ih ihrest
    exact body_finds_rest (ih (by omega) hknows.1) (ihrest (by omega) hknows.2)
  | one h ih =>
    intro hsize hknows
    simp only [one.sizeOf_spec] at hsize
    simpa only [Finds, item, quantified] using ih (by omega) hknows
  | absent h ih =>
    intro hsize hknows
    simp only [absent.sizeOf_spec] at hsize
    exact maybe_finds (ih (by omega) hknows)
  | present h ih =>
    intro hsize hknows
    simp only [present.sizeOf_spec] at hsize
    exact maybe_finds (ih (by omega) hknows)
  | any h ih =>
    intro hsize hknows
    simp only [any.sizeOf_spec] at hsize
    exact any_finds (ih (by omega) hknows)
  | manyFails h ih =>
    intro hsize hknows
    simp only [manyFails.sizeOf_spec] at hsize
    exact many_finds_none (ih (by omega) hknows)
  | many hfirst h ihfirst ih =>
    intro hsize hknows
    simp only [many.sizeOf_spec] at hsize
    exact many_finds (ihfirst (by omega) hknows) (ih (by omega) hknows)
  | rowEnd h ih =>
    intro hsize hknows
    simp only [rowEnd.sizeOf_spec] at hsize
    exact (row_finds_end (ih (by omega) hknows)).imp fun r hr => by rw [hr]
  | rowStays h hstop ih =>
    intro hsize hknows
    simp only [rowStays.sizeOf_spec] at hsize
    exact row_finds_last (ih (by omega) hknows) hstop
  | @rowGoes x cursor m n h hlt hrest ih ihrest =>
    intro hsize hknows
    simp only [rowGoes.sizeOf_spec] at hsize
    have hinput : cursor < s.length := by
      have hbounds := h.bounds m rfl
      rw [s.length_eq]
      omega
    exact row_finds_more (ih (by omega) hknows) hlt hinput (ihrest (by omega) hknows)
  | groupFails h ih =>
    intro hsize hknows
    simp only [groupFails.sizeOf_spec] at hsize
    simp only [Phrase.isKnown, Singular.all] at hknows ih
    simp only [Finds, singular]
    refine record_bind (Yields.bind (ih (by omega) hknows) fun o ho => ?_)
    subst ho
    exact Yields.of_pure rfl
  | group h hskip ih =>
    intro hsize hknows
    simp only [group.sizeOf_spec] at hsize
    simp only [Phrase.isKnown, Singular.all] at hknows ih
    simp only [Finds, singular]
    refine record_bind (Yields.bind (ih (by omega) hknows) fun o ho => ?_)
    subst ho
    exact settle_finds hs hskip
  | callFails hproduction h ih =>
    intro hsize _
    simp only [callFails.sizeOf_spec] at hsize
    simp only [Finds, singular, hproduction, if_true]
    refine Yields.bind (ih (by omega) hproduction) fun o ho => ?_
    subst ho
    exact Yields.of_pure rfl
  | call hproduction h hskip ih =>
    intro hsize _
    simp only [Derivation.call.sizeOf_spec] at hsize
    simp only [Finds, singular, hproduction, if_true]
    refine Yields.bind (ih (by omega) hproduction) fun o ho => ?_
    subst ho
    exact settle_finds hs hskip
  | tokenFails hlexical h =>
    intro _ hknows
    exact token_finds hs hknows hlexical (.tokenFails hlexical h)
  | token hlexical h hskip =>
    intro _ hknows
    exact token_finds hs hknows hlexical (.token hlexical h hskip)

theorem choose_finds_after {before rest : Alternation}
    (hbefore : ∀ b ∈ before, s.Finds call (.body b.body) cursor none)
    {good : Option (Nat × Match) → Prop} :
    ∀ {index}, Yields (choose s call (index + before.length) rest cursor) good Halt.IsTooDeep →
      Yields (choose s call index (before ++ rest) cursor) good Halt.IsTooDeep := by
  induction before with
  | nil => exact fun h => h
  | cons b before ih =>
    intro index h
    rw [List.cons_append, choose]
    refine (alternative_finds (hbefore b List.mem_cons_self)).bind fun o ho => ?_
    subst ho
    refine ih (fun c hc => hbefore c (List.mem_cons_of_mem _ hc)) ?_
    have hindex : index + 1 + before.length = index + (b :: before).length := by
      rw [List.length_cons]
      omega
    rw [hindex]
    exact h

/-- The first alternative that matches is chosen, and the rule makes its node. -/
theorem expand_finds (hs : s.rules.Tagged s.variants) {size : Nat}
    (hcall : ∀ {name cursor o} (h : s.Derivation (.rule name) cursor o), sizeOf h < size →
      s.rules.isProduction name = true → Yields (call name cursor) (· = o) Halt.IsTooDeep)
    (active : List Frame) {name : Text} {r : Rule} (hget : s.rules.get? name = some r)
    (hkind : r.kind = .production) {o : Outcome} (h : s.Derivation (.rule name) cursor o)
    (hsize : sizeOf h ≤ size) : Yields (s.expand call active r cursor) (· = o) Halt.IsTooDeep := by
  have hknows := Alternation.all_iff.mp (hs.knows (RuleSet.mem_of_get? hget) hkind)
  have hfails : ∀ {alternatives} (hchoice : s.Derivation (.choice alternatives) cursor none),
      sizeOf hchoice < size → (∀ b ∈ alternatives, b ∈ r.alternatives) →
      ∀ b ∈ alternatives, s.Finds call (.body b.body) cursor none := by
    intro alternatives hchoice hless hsub b hb
    obtain ⟨h', hsmall⟩ := Derivation.fails_of_mem hb hchoice
    exact h'.finds hs.toSound hcall (by omega) (hknows b (hsub b hb))
  refine record_bind ?_
  cases h with
  | @rule _ r' before after a _ m span hget' hsplit hbefore hmatch hspan =>
    rw [hget] at hget'
    cases hget'
    simp only [Derivation.rule.sizeOf_spec] at hsize
    have hmatches : s.Finds call (.body a.body) cursor (some m) :=
      hmatch.finds hs.toSound hcall (by omega) (hknows a (by simp [hsplit]))
    have hchoose : Yields (choose s call 0 r.alternatives cursor) (· = some (before.length, m))
        Halt.IsTooDeep := by
      rw [hsplit]
      refine choose_finds_after (hfails hbefore (by omega) (by simp_all)) ?_
      rw [choose, Nat.zero_add]
      refine (alternative_finds hmatches).bind fun o ho => ?_
      subst ho
      exact Yields.of_pure rfl
    refine hchoose.bind fun o ho => ?_
    subst ho
    rw [Tree.spannedBy_iff.mp hspan, ← node_eq hs hget hkind hsplit]
    exact record_bind (Yields.of_pure rfl)
  | ruleFails hget' hchoice =>
    rw [hget] at hget'
    cases hget'
    simp only [Derivation.ruleFails.sizeOf_spec] at hsize
    have hchoose : Yields (choose s call 0 r.alternatives cursor) (· = none) Halt.IsTooDeep := by
      have hrest : Yields (choose s call (0 + r.alternatives.length) [] cursor) (· = none)
          Halt.IsTooDeep := Yields.of_pure rfl
      simpa using choose_finds_after (hfails hchoice (by omega) fun _ hb => hb) hrest
    refine hchoose.bind fun o ho => ?_
    subst ho
    exact record_bind (Yields.of_pure rfl)

end Completeness

/-- Of the derivations for a part and a cursor one is smallest. -/
theorem Derivation.exists_smallest {p : Phrase} {cursor : Nat} {o : Outcome}
    (h : s.Derivation p cursor o) :
    ∃ least : s.Derivation p cursor o, ∀ o' (h' : s.Derivation p cursor o'),
      sizeOf least ≤ sizeOf h' := by
  have hexists : ∃ n, ∃ h' : s.Derivation p cursor o, sizeOf h' = n := ⟨_, h, rfl⟩
  classical
  obtain ⟨least, hleast⟩ := Nat.find_spec hexists
  refine ⟨least, fun o' h' => ?_⟩
  obtain rfl := h.unique h'
  rw [hleast]
  exact Nat.find_min' hexists ⟨h', rfl⟩

/-- What has a derivation for a rule is found, unless an active call has a derivation that is not
greater. -/
theorem rule_finds (hs : s.rules.Tagged s.variants) (limit : Nat) :
    ∀ (active : List Frame) {name : Text} {cursor : Nat} {o : Outcome}
      (h : s.Derivation (.rule name) cursor o), s.rules.isProduction name = true →
      (∀ f ∈ active, ∀ o' (h' : s.Derivation (.rule f.rule) f.cursor o'), sizeOf h < sizeOf h') →
      Yields (s.rule limit active name cursor) (· = o) Halt.IsTooDeep := by
  induction limit with
  | zero =>
    intro active name cursor o h hproduction hactive
    obtain ⟨r, hget, -⟩ := RuleSet.isProduction_iff.mp hproduction
    have hfree : (⟨name, cursor⟩ : Frame) ∉ active :=
      fun hmem => Nat.lt_irrefl _ (hactive _ hmem o h)
    simp only [rule, enter, hget, if_neg hfree]
    exact Yields.of_throw ⟨_, rfl⟩
  | succ limit ih =>
    intro active name cursor o h hproduction hactive
    obtain ⟨r, hget, hkind⟩ := RuleSet.isProduction_iff.mp hproduction
    have hfree : (⟨name, cursor⟩ : Frame) ∉ active :=
      fun hmem => Nat.lt_irrefl _ (hactive _ hmem o h)
    obtain ⟨least, hleast⟩ := h.exists_smallest
    -- Inside of the smallest derivation every call has a smaller one than all that are active.
    have hcall : ∀ {name' cursor' o'} (h' : s.Derivation (.rule name') cursor' o'),
        sizeOf h' < sizeOf least → s.rules.isProduction name' = true →
        Yields (s.rule limit (⟨name, cursor⟩ :: active) name' cursor') (· = o') Halt.IsTooDeep := by
      intro name' cursor' o' h' hsize hproduction'
      refine ih _ h' hproduction' fun f hf o'' h'' => ?_
      rcases List.mem_cons.mp hf with rfl | hf
      · exact Nat.lt_of_lt_of_le hsize (hleast o'' h'')
      · have hle := hleast o h
        have hlt := hactive f hf o'' h''
        omega
    simp only [rule, enter, hget, if_neg hfree]
    exact expand_finds hs hcall active hget hkind least (Nat.le_refl _)

/-- What the parser answers for a rule at a cursor when no call is active. -/
def answer (s : Session) (limit : Nat) (name : Text) (cursor : Nat) : Except Halt Outcome :=
  ((s.rule limit [] name cursor).run.run Progress.initial).1

theorem answer_iff (hs : s.rules.Tagged s.variants) {limit : Nat} {name : Text} {cursor : Nat}
    (hproduction : s.rules.isProduction name = true)
    (hdeep : ∀ frame, s.answer limit name cursor ≠ .error (.tooDeep frame)) :
    (∀ o, s.answer limit name cursor = .ok o ↔ s.Derives (.rule name) cursor o) ∧
      ((∃ frame, s.answer limit name cursor = .error (.noProgress frame)) ↔
        ∀ o, ¬ s.Derives (.rule name) cursor o) := by
  have hsound := rule_sound hs limit [] name hproduction cursor
  have hfinds : ∀ {o}, s.Derives (.rule name) cursor o → s.answer limit name cursor = .ok o := by
    intro o hderives
    obtain ⟨h⟩ := hderives
    have hrule := rule_finds hs limit [] h hproduction (by simp)
    unfold answer at hdeep ⊢
    generalize hrun : (s.rule limit [] name cursor).run.run Progress.initial = result at hdeep ⊢
    obtain ⟨halt | o', progress⟩ := result
    · obtain ⟨frame, rfl⟩ := hrule.failure hrun
      exact absurd rfl (hdeep frame)
    · rw [hrule.answer hrun]
  have hderives : ∀ {o}, s.answer limit name cursor = .ok o → s.Derives (.rule name) cursor o := by
    intro o hanswer
    exact hsound.answer (Prod.ext hanswer rfl)
  refine ⟨fun o => ⟨hderives, hfinds⟩, ?_, ?_⟩
  · rintro ⟨frame, hanswer⟩ o ho
    rw [hfinds ho] at hanswer
    cases hanswer
  · intro hnone
    cases hanswer : s.answer limit name cursor with
    | ok o => exact absurd (hderives hanswer) (hnone o)
    | error halt =>
      have hhalt := hsound.failure (Prod.ext hanswer rfl)
      cases halt with
      | noProgress frame => exact ⟨frame, rfl⟩
      | tooDeep frame => exact absurd hanswer (hdeep frame)
      | fault f => exact absurd rfl (hhalt f)

end Session

namespace Grammar

/-- A compiled grammar parses by the rules of ordered choice: unless a parse gets too deep, the
start rule at the first cursor after white space is answered with an outcome if and only if this
outcome has a derivation, and the parse stops for lack of progress if and only if there is no
derivation at all. -/
theorem answer_iff_derivation {source whitespaceName : Text} {g : Grammar}
    (hg : compile source whitespaceName = .ok g) {start : Text}
    (hstart : g.rules.isProduction start = true) (input : Input) (limit : Nat)
    (allowTrailing : Bool)
    (hdeep : ∀ position rule, (g.parser.parse limit start input allowTrailing).1 ≠
      .error (.parse (.tooDeep position rule))) :
    ∃ cursor, (g.parser.session input).skip 0 = .ok cursor ∧
      (g.parser.session input).Skips 0 cursor ∧
      (∀ o, (g.parser.session input).answer limit start cursor = .ok o ↔
        (g.parser.session input).Derives (.rule start) cursor o) ∧
      ((∃ frame, (g.parser.session input).answer limit start cursor =
          .error (.noProgress frame)) ↔
        ∀ o, ¬ (g.parser.session input).Derives (.rule start) cursor o) := by
  have hcompiled := compiled_of_compile hg
  have htagged := hcompiled.tagged
  have hproduction : g.parser.rules.isProduction start = true := hcompiled.parserRules ▸ hstart
  obtain ⟨cursor, hskip, hskips⟩ := (g.parser.session input).skip_cases htagged.toSound 0
  have hanswer : ∀ frame, (g.parser.session input).answer limit start cursor ≠
      .error (.tooDeep frame) := by
    intro frame h
    refine hdeep (input.position frame.cursor) frame.rule ?_
    simp only [Parser.parse, if_pos hproduction, Parser.run_attempt hskip]
    unfold Session.answer at h
    generalize ((g.parser.session input).rule limit [] start cursor).run.run Progress.initial =
      result at h ⊢
    obtain ⟨answer, progress⟩ := result
    cases h
    rfl
  exact ⟨cursor, hskip, hskips, Session.answer_iff htagged hproduction hanswer⟩

def letterPairs : Text := Text.ofString
  "list ::= pair* tail -> pairs; pair ::= 'x' ('y' | 'z'); tail ::= 'w'?; _ :== ' '+;"

def twoPairs : Text := Text.ofString "x y x z "

/-- The tree of two pairs, with a tail at `stop` that has nothing in it. -/
def twoPairsTree (stop : Int) : Tree :=
  .node (Text.ofString "list") (Text.ofString "pairs")
    [.node (Text.ofString "pair") (Text.ofString "pair_0")
      [.token ⟨Text.ofString "'x'", Text.ofString "x", ⟨0, 1⟩⟩,
        .token ⟨Text.ofString "'y'", Text.ofString "y", ⟨2, 3⟩⟩] ⟨0, 3⟩,
      .node (Text.ofString "pair") (Text.ofString "pair_0")
        [.token ⟨Text.ofString "'x'", Text.ofString "x", ⟨4, 5⟩⟩,
          .token ⟨Text.ofString "'z'", Text.ofString "z", ⟨6, 7⟩⟩] ⟨4, 7⟩,
      .node (Text.ofString "tail") (Text.ofString "tail_0") [] ⟨stop, stop⟩] ⟨0, stop⟩

/-- On characters the tail of two pairs is behind the last blank, on tokens it is behind the last
token. There is no other outcome. -/
theorem answer_iff_derivation_letterPairs :
    ∃ g tokens, compile letterPairs (Text.ofString "_") = .ok g ∧
      g.rules.isProduction (Text.ofString "list") = true ∧
      g.tokenizer.tokenize twoPairs = .ok tokens ∧
      ((g.parser.session (.text twoPairs)).answer 9 (Text.ofString "list") 0 =
          .ok (some ⟨8, [twoPairsTree 8]⟩) ∧
        ∀ o, (g.parser.session (.text twoPairs)).Derives (.rule (Text.ofString "list")) 0 o ↔
          o = some ⟨8, [twoPairsTree 8]⟩) ∧
      (g.parser.session (.tokens tokens.toArray)).answer 9 (Text.ofString "list") 0 =
          .ok (some ⟨4, [twoPairsTree 7]⟩) ∧
        ∀ o, (g.parser.session (.tokens tokens.toArray)).Derives
            (.rule (Text.ofString "list")) 0 o ↔ o = some ⟨4, [twoPairsTree 7]⟩ := by
  have htest : (compile letterPairs (Text.ofString "_")).toOption.any (fun g =>
      g.rules.isProduction (Text.ofString "list") &&
      (g.tokenizer.tokenize twoPairs).toOption.any fun tokens =>
        [(Input.text twoPairs, 8, 8), (.tokens tokens.toArray, 4, 7)].all fun (input, stop, last) =>
          (g.parser.parse 9 (Text.ofString "list") input false).1.isOk &&
          ((g.parser.session input).skip 0).toOption.any (fun cursor => decide (cursor = 0)) &&
          ((g.parser.session input).answer 9 (Text.ofString "list") 0).toOption.any fun o =>
            decide (o = some ⟨stop, [twoPairsTree last]⟩)) = true := by
    decide +kernel
  obtain ⟨g, hg, htest⟩ := exists_compile htest
  obtain ⟨hstart, htest⟩ := Bool.and_eq_true_iff.mp htest
  obtain ⟨tokens, htokens, htest⟩ := exists_of_toOption_any htest
  have houtcome : ∀ x ∈ [(Input.text twoPairs, 8, 8), (.tokens tokens.toArray, 4, 7)],
      (g.parser.session x.1).answer 9 (Text.ofString "list") 0 =
          .ok (some ⟨x.2.1, [twoPairsTree x.2.2]⟩) ∧
        ∀ o, (g.parser.session x.1).Derives (.rule (Text.ofString "list")) 0 o ↔
          o = some ⟨x.2.1, [twoPairsTree x.2.2]⟩ := by
    rintro ⟨input, stop, last⟩ hx
    have hinput := List.all_eq_true.mp htest _ hx
    simp only [Bool.and_eq_true] at hinput
    obtain ⟨⟨hok, hskip⟩, hanswer⟩ := hinput
    obtain ⟨first, hskip, hfirst⟩ := exists_of_toOption_any hskip
    obtain ⟨found, hanswer, hfound⟩ := exists_of_toOption_any hanswer
    obtain rfl := of_decide_eq_true hfirst
    obtain rfl := of_decide_eq_true hfound
    have hdeep : ∀ position rule, (g.parser.parse 9 (Text.ofString "list") input false).1 ≠
        .error (.parse (.tooDeep position rule)) := by
      intro position rule herror
      rw [herror] at hok
      cases hok
    obtain ⟨cursor, hcursor, -, hiff, -⟩ := answer_iff_derivation hg hstart input 9 false hdeep
    rw [hskip] at hcursor
    cases hcursor
    refine ⟨hanswer, fun o => ?_⟩
    rw [← hiff o, hanswer, Except.ok.injEq]
    exact eq_comm
  exact ⟨g, tokens, hg, hstart, htokens, houtcome (.text twoPairs, 8, 8) (by simp),
    houtcome (.tokens tokens.toArray, 4, 7) (by simp)⟩

end Grammar

end GrammarKit
