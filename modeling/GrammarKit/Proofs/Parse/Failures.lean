import GrammarKit.Proofs.Parse.Soundness

/-!
The failed attempts of a parse. A derivation goes through every attempt that ordered choice makes,
those of alternatives that are given up and of items that need not match among them, so the failures
can be read off it, and all derivations of a part at a cursor have the same. Main statement: trying
a rule puts the failures of its derivation on record, one by one and in their order.
-/
namespace GrammarKit

namespace Session

variable {s : Session}

namespace Derivation

/-- The failed attempts on the way to an outcome, in their order: tokens that are missed, and rules
none of whose alternatives matched. -/
def failures {p : Phrase} {cursor : Nat} {o : Outcome} :
    s.Derivation p cursor o → List (Nat × Text)
  | .rule _ _ hbefore h _ => hbefore.failures ++ h.failures
  | @ruleFails _ name _ cursor _ h => h.failures ++ [(cursor, name)]
  | .choiceFails => []
  | .choiceFirst h => h.failures
  | .choiceNext h hrest => h.failures ++ hrest.failures
  | .bodyEnd => []
  | .bodyFails h => h.failures
  | .bodyBreaks h hrest => h.failures ++ hrest.failures
  | .bodyGoes h hrest => h.failures ++ hrest.failures
  | .one h => h.failures
  | .absent h => h.failures
  | .present h => h.failures
  | .any h => h.failures
  | .manyFails h => h.failures
  -- The first match of a row is tried once, in the row.
  | .many _ h => h.failures
  | .rowEnd h => h.failures
  | .rowStays h _ => h.failures
  | .rowGoes h _ hrest => h.failures ++ hrest.failures
  | .groupFails h => h.failures
  | .group h _ => h.failures
  | .callFails _ h => h.failures
  | .call _ h _ => h.failures
  | @tokenFails _ name _ cursor _ _ => [(cursor, name)]
  | .token _ _ _ => []

/-- A rule that fails is a failure itself. -/
theorem mem_failures {name : Text} {cursor : Nat} (d : s.Derivation (.rule name) cursor none) :
    (cursor, name) ∈ d.failures := by
  cases d with
  | ruleFails hget h => simp [failures]

/-- The failures depend on the part and the cursor only. -/
theorem failures_unique {p : Phrase} {cursor : Nat} {o : Outcome} (h : s.Derivation p cursor o) :
    ∀ {o'} (h' : s.Derivation p cursor o'), h.failures = h'.failures := by
  induction h with
  | rule hget hsplit hbefore h hspan ihbefore ih =>
    intro o' h'
    cases h' with
    | rule hget' hsplit' hbefore' h' hspan' =>
      rw [hget] at hget'
      cases hget'
      obtain ⟨rfl, rfl⟩ := split_unique (hsplit.symm.trans hsplit')
        (fun hfailed => by cases h.unique hfailed)
        (fun m hmatched => by cases hbefore.unique hmatched) hbefore' h'
      simp only [failures, ihbefore hbefore', ih h']
    | ruleFails hget' h' =>
      cases (Derivation.rule hget hsplit hbefore h hspan).unique (.ruleFails hget' h')
  | ruleFails hget h ih =>
    intro o' h'
    cases h' with
    | rule hget' hsplit' hbefore' h' hspan' =>
      cases (Derivation.ruleFails hget h).unique (.rule hget' hsplit' hbefore' h' hspan')
    | ruleFails hget' h' =>
      rw [hget] at hget'
      cases hget'
      simp only [failures, ih h']
  | choiceFails =>
    intro o' h'
    cases h'
    rfl
  | choiceFirst h ih =>
    intro o' h'
    cases h' with
    | choiceFirst h' => exact ih h'
    | choiceNext h' _ => cases h.unique h'
  | choiceNext h hrest ih ihrest =>
    intro o' h'
    cases h' with
    | choiceFirst h' => cases h.unique h'
    | choiceNext h' hrest' => simp only [failures, ih h', ihrest hrest']
  | bodyEnd =>
    intro o' h'
    cases h'
    rfl
  | bodyFails h ih =>
    intro o' h'
    cases h' with
    | bodyFails h' => exact ih h'
    | bodyBreaks h' | bodyGoes h' => cases h.unique h'
  | bodyBreaks h hrest ih ihrest | bodyGoes h hrest ih ihrest =>
    intro o' h'
    cases h' with
    | bodyFails h' => cases h.unique h'
    | bodyBreaks h' hrest' | bodyGoes h' hrest' =>
      cases h.unique h'
      simp only [failures, ih h', ihrest hrest']
  | one h ih =>
    intro o' h'
    cases h' with
    | one h' => exact ih h'
  | absent h ih | present h ih =>
    intro o' h'
    cases h' with
    | absent h' | present h' => exact ih h'
  | any h ih =>
    intro o' h'
    cases h' with
    | any h' => exact ih h'
  | manyFails h ih =>
    intro o' h'
    cases h' with
    | manyFails h' => exact ih h'
    | many hfirst' _ => cases h.unique hfirst'
  | many hfirst h ihfirst ih =>
    intro o' h'
    cases h' with
    | manyFails h' => cases hfirst.unique h'
    | many _ h' => exact ih h'
  | rowEnd h ih =>
    intro o' h'
    cases h' with
    | rowEnd h' => exact ih h'
    | rowStays h' | rowGoes h' => cases h.unique h'
  | rowStays h hstop ih =>
    intro o' h'
    cases h' with
    | rowEnd h' => cases h.unique h'
    | rowStays h' => exact ih h'
    | rowGoes h' hlt =>
      cases h.unique h'
      exact absurd hlt hstop
  | rowGoes h hlt hrest ih ihrest =>
    intro o' h'
    cases h' with
    | rowEnd h' => cases h.unique h'
    | rowStays h' hstop =>
      cases h.unique h'
      exact absurd hlt hstop
    | rowGoes h' _ hrest' =>
      cases h.unique h'
      simp only [failures, ih h', ihrest hrest']
  | groupFails h ih | group h _ ih =>
    intro o' h'
    cases h' with
    | groupFails h' | group h' => exact ih h'
  | callFails hproduction h ih | call hproduction h _ ih =>
    intro o' h'
    cases h' with
    | callFails _ h' | call _ h' => exact ih h'
    | tokenFails hlexical | token hlexical =>
      rw [hproduction] at hlexical
      cases hlexical
  | tokenFails hlexical h =>
    intro o' h'
    cases h' with
    | callFails hproduction | call hproduction =>
      rw [hlexical] at hproduction
      cases hproduction
    | tokenFails => rfl
    | token _ htakes => exact absurd htakes (h _ _)
  | token hlexical htakes hskip =>
    intro o' h'
    cases h' with
    | callFails hproduction | call hproduction =>
      rw [hlexical] at hproduction
      cases hproduction
    | tokenFails _ h => exact absurd htakes (h _ _)
    | token => rfl

end Derivation

end Session

namespace Progress

theorem failures_record (progress : Progress) (e : Event) :
    (progress.record e).trace.failures = progress.trace.failures ++ e.failure?.toList := by
  simp only [Trace.failures, Progress.record]
  cases hfailure : e.failure? with
  | none => simp [hfailure]
  | some failure => simp [hfailure]

end Progress

namespace Session

open Attempt

variable {s : Session}

section Record

variable {α : Type} {failures : List (Nat × Text)} {post : α → Progress → Prop}
  {exit : Halt → Progress → Prop}

/-- An event leaves its failure on record, if it is one. -/
theorem ensures_failure_bind {e : Event} {f : Unit → Attempt α}
    (h : Ensures (fun progress => progress.trace.failures = failures ++ e.failure?.toList) (f ())
      post exit) :
    Ensures (fun progress => progress.trace.failures = failures) (record e >>= f) post exit := by
  refine ensures_record_bind (fun progress hprogress => ?_) h
  rw [progress.failures_record, hprogress]

/-- Events that are no failures change nothing. -/
theorem ensures_silent_bind {e : Event} (he : e.failure? = none) {f : Unit → Attempt α}
    (h : Ensures (fun progress => progress.trace.failures = failures) (f ()) post exit) :
    Ensures (fun progress => progress.trace.failures = failures) (record e >>= f) post exit := by
  apply ensures_failure_bind
  rwa [he, Option.toList_none, List.append_nil]

end Record

/-- The failures on record are those of a derivation, behind some that were there before. -/
def Accounted (s : Session) (p : Phrase) (cursor : Nat) (failures : List (Nat × Text))
    (o : Outcome) (progress : Progress) : Prop :=
  ∃ d : s.Derivation p cursor o, progress.trace.failures = failures ++ d.failures

def Accounts (s : Session) (p : Phrase) (cursor : Nat) (x : Attempt Outcome) : Prop :=
  ∀ failures, Ensures (fun progress => progress.trace.failures = failures) x
    (s.Accounted p cursor failures) fun _ _ => True

/-- What is done after a part goes on with its derivation and its failures. -/
theorem Accounts.bind {p : Phrase} {cursor : Nat} {x : Attempt Outcome}
    (h : s.Accounts p cursor x) {α : Type} {f : Outcome → Attempt α}
    {failures : List (Nat × Text)} {post : α → Progress → Prop}
    (hf : ∀ o (d : s.Derivation p cursor o),
      Ensures (fun progress => progress.trace.failures = failures ++ d.failures) (f o) post
        fun _ _ => True) :
    Ensures (fun progress => progress.trace.failures = failures) (x >>= f) post
      fun _ _ => True := by
  refine Ensures.bind (h failures) fun o => ?_
  intro progress hprogress
  obtain ⟨d, hd⟩ := hprogress
  exact hf o d progress hd

/-- A derivation of one part that makes a derivation of another one. -/
theorem Accounts.imp {p q : Phrase} {cursor : Nat} {x : Attempt Outcome}
    (h : s.Accounts p cursor x)
    (hmake : ∀ {o} (d : s.Derivation p cursor o),
      ∃ d' : s.Derivation q cursor o, d'.failures = d.failures) : s.Accounts q cursor x := by
  intro failures
  refine (h failures).imp (fun _ h => h) (fun o progress hd => ?_) fun _ _ h => h
  obtain ⟨d, hd⟩ := hd
  obtain ⟨d', hd'⟩ := hmake d
  exact ⟨d', by rw [hd', hd]⟩

/-- An answer whose derivation has the failures that are on record. -/
theorem ensures_pure {p : Phrase} {cursor : Nat} {o : Outcome} {failures more : List (Nat × Text)}
    (d : s.Derivation p cursor o) (hd : d.failures = more) :
    Ensures (fun progress => progress.trace.failures = failures ++ more)
      (pure o : Attempt Outcome) (s.Accounted p cursor failures) fun _ _ => True := by
  apply Ensures.of_pure
  intro progress hprogress
  exact ⟨d, by rw [hprogress, hd]⟩

/-- An answer without any attempt. -/
theorem accounts_pure {p : Phrase} {cursor : Nat} {o : Outcome} (d : s.Derivation p cursor o)
    (hd : d.failures = []) : s.Accounts p cursor (pure o) := by
  intro failures
  apply Ensures.of_pure
  intro progress hprogress
  exact ⟨d, by rw [hprogress, hd, List.append_nil]⟩

theorem takeToken_accounts (hs : s.rules.Sound) {name : Text}
    (hknown : s.rules.contains name = true) (hlexical : s.rules.isProduction name = false)
    (span : Span) (cursor : Nat) :
    s.Accounts (.singular (.symbol name span)) cursor (s.takeToken name cursor) := by
  intro failures
  unfold takeToken
  rcases token?_cases hs hknown hlexical cursor with ⟨token, middle, htoken, htakes⟩ | ⟨htoken, hno⟩
  · obtain ⟨stop, hskip, hskips⟩ := skip_cases hs middle
    apply ensures_ofFault_bind htoken
    apply ensures_ofFault_bind hskip
    exact ensures_failure_bind (ensures_pure (.token hlexical htakes hskips) rfl)
  · apply ensures_ofFault_bind htoken
    exact ensures_failure_bind (ensures_pure (.tokenFails hlexical hno) rfl)

/-- White space behind a match leaves nothing on record. -/
theorem settle_accounts (hs : s.rules.Sound) {p q : Phrase} {cursor : Nat} {x : Attempt Outcome}
    (h : s.Accounts p cursor x)
    (hnone : ∀ d : s.Derivation p cursor none,
      ∃ d' : s.Derivation q cursor none, d'.failures = d.failures)
    (hsome : ∀ {m stop} (d : s.Derivation p cursor (some m)), s.Skips m.stop stop →
      ∃ d' : s.Derivation q cursor (some ⟨stop, m.children⟩), d'.failures = d.failures) :
    s.Accounts q cursor (x >>= s.settle) := by
  intro failures
  refine h.bind fun o d => ?_
  cases o with
  | none =>
    obtain ⟨d', hd'⟩ := hnone d
    exact ensures_pure d' hd'
  | some m =>
    obtain ⟨stop, hskip, hskips⟩ := skip_cases hs m.stop
    obtain ⟨d', hd'⟩ := hsome d hskips
    exact ensures_ofFault_bind hskip (ensures_pure d' hd')

/-- A row has the failures of its parts. Where it counts none they are those of the first part. -/
theorem takeAll_accounts {x : Singular} {part : Nat → Attempt Outcome}
    (hpart : ∀ cursor, s.Accounts (.singular x) cursor (part cursor)) (cursor : Nat)
    (failures : List (Nat × Text)) :
    Ensures (fun progress => progress.trace.failures = failures) (takeAll s.length part cursor)
      (fun r progress => ∃ d : s.Derivation (.row x) cursor (some r.2),
        progress.trace.failures = failures ++ d.failures ∧
        if r.1 = 0 then ∃ d' : s.Derivation (.singular x) cursor none, d'.failures = d.failures
        else ∃ m, s.Derives (.singular x) cursor (some m)) fun _ _ => True := by
  induction hleft : s.length - cursor using Nat.strong_induction_on
    generalizing cursor failures with
  | _ left ih =>
    unfold takeAll
    apply ensures_silent_bind rfl
    refine (hpart cursor).bind fun o d => ?_
    cases o with
    | none =>
      apply Ensures.of_pure
      intro progress hprogress
      exact ⟨.rowEnd d, hprogress, by simpa using ⟨d, rfl⟩⟩
    | some m =>
      have hbounds := d.bounds m rfl
      by_cases hgo : cursor < m.stop ∧ cursor < s.length
      · simp only [if_pos hgo]
        have hrest := ih (s.length - m.stop) (by omega) m.stop (failures ++ d.failures) rfl
        refine Ensures.bind hrest fun r => ?_
        apply Ensures.of_pure
        intro progress hr
        obtain ⟨drest, hprogress, -⟩ := hr
        refine ⟨.rowGoes d hgo.1 drest, ?_, by simpa using ⟨m, ⟨d⟩⟩⟩
        rw [hprogress, List.append_assoc]
        rfl
      · simp only [if_neg hgo]
        have hstop : ¬ cursor < m.stop := by
          rw [s.length_eq] at hgo
          omega
        apply Ensures.of_pure
        intro progress hprogress
        exact ⟨.rowStays d hstop, hprogress, by simpa using ⟨m, ⟨d⟩⟩⟩

theorem quantified_accounts {x : Singular} {part : Nat → Attempt Outcome}
    (hpart : ∀ cursor, s.Accounts (.singular x) cursor (part cursor)) (quantifier : Quantifier)
    (cursor : Nat) :
    s.Accounts (.item ⟨x, quantifier⟩) cursor (s.quantified quantifier part cursor) := by
  intro failures
  unfold quantified
  cases quantifier with
  | one => exact (hpart cursor).imp (fun d => ⟨.one d, rfl⟩) failures
  | maybe =>
    refine (hpart cursor).bind fun o d => ?_
    cases o with
    | none => exact ensures_pure (.absent d) rfl
    | some m => exact ensures_pure (.present d) rfl
  | any =>
    refine Ensures.bind (takeAll_accounts hpart cursor failures) fun r => ?_
    apply Ensures.of_pure
    intro progress hr
    obtain ⟨d, hprogress, -⟩ := hr
    exact ⟨.any d, hprogress⟩
  | many =>
    refine Ensures.bind (takeAll_accounts hpart cursor failures) fun r => ?_
    apply Ensures.of_pure
    intro progress hr
    obtain ⟨d, hprogress, hfirst⟩ := hr
    by_cases hcount : r.1 = 0
    · rw [if_pos hcount] at hfirst ⊢
      obtain ⟨d', hd'⟩ := hfirst
      exact ⟨.manyFails d', by rw [hprogress, ← hd']; rfl⟩
    · rw [if_neg hcount] at hfirst ⊢
      obtain ⟨m, ⟨d'⟩⟩ := hfirst
      exact ⟨.many d' d, hprogress⟩

def CallsAccount (s : Session) (call : Text → Nat → Attempt Outcome) : Prop :=
  ∀ name, s.rules.isProduction name = true → ∀ cursor,
    s.Accounts (.rule name) cursor (call name cursor)

section Parts

variable {call : Text → Nat → Attempt Outcome}

mutual

/-- A part puts the failures of a derivation on record if the rules it calls do. -/
theorem singular_accounts (hs : s.rules.Sound) (hcall : s.CallsAccount call) :
    ∀ (x : Singular), x.all s.rules.knows = true → ∀ cursor,
      s.Accounts (.singular x) cursor (singular s call x cursor)
  | .group alternatives, hknows, cursor => by
    simp only [Singular.all] at hknows
    simp only [singular]
    intro failures
    apply ensures_silent_bind rfl
    exact settle_accounts hs (alternation_accounts hs hcall alternatives hknows cursor)
      (fun d => ⟨.groupFails d, rfl⟩) (fun d hskips => ⟨.group d hskips, rfl⟩) failures
  | .symbol name span, hknows, cursor => by
    simp only [Singular.all, RuleSet.knows] at hknows
    simp only [singular]
    by_cases hproduction : s.rules.isProduction name = true
    · rw [if_pos hproduction]
      exact settle_accounts hs (hcall name hproduction cursor)
        (fun d => ⟨.callFails hproduction d, rfl⟩)
        (fun d hskips => ⟨.call hproduction d hskips, rfl⟩)
    · rw [if_neg hproduction]
      exact takeToken_accounts hs hknows (by simpa using hproduction) span cursor
  | .literal source matchers span, hknows, _ => by simp [Singular.all, RuleSet.knows] at hknows
  | .charset source matcher span, hknows, _ => by simp [Singular.all, RuleSet.knows] at hknows

theorem alternation_accounts (hs : s.rules.Sound) (hcall : s.CallsAccount call) :
    ∀ (alternatives : List (Alternative (Item Singular))),
      Alternation.all s.rules.knows alternatives = true → ∀ cursor,
      s.Accounts (.choice alternatives) cursor (alternation s call alternatives cursor)
  | [], _, cursor => by
    simp only [alternation]
    exact accounts_pure .choiceFails rfl
  | a :: rest, hknows, cursor => by
    simp only [Alternation.all, Bool.and_eq_true] at hknows
    simp only [alternation]
    intro failures
    refine (alternative_accounts hs hcall a hknows.1 cursor).bind fun o d => ?_
    cases o with
    | some m => exact ensures_pure (.choiceFirst d) rfl
    | none =>
      refine (alternation_accounts hs hcall rest hknows.2 cursor (failures ++ d.failures)).imp
        (fun _ h => h) (fun o progress hrest => ?_) fun _ _ h => h
      obtain ⟨drest, hprogress⟩ := hrest
      exact ⟨.choiceNext d drest, by rw [hprogress, List.append_assoc]; rfl⟩

theorem alternative_accounts (hs : s.rules.Sound) (hcall : s.CallsAccount call) :
    ∀ (a : Alternative (Item Singular)), Alternative.all s.rules.knows a = true → ∀ cursor,
      s.Accounts (.body a.body) cursor (alternative s call a cursor)
  | ⟨_, _, items, _⟩, hknows, cursor => by
    simp only [Alternative.all] at hknows
    simp only [alternative]
    exact body_accounts hs hcall items hknows cursor

theorem body_accounts (hs : s.rules.Sound) (hcall : s.CallsAccount call) :
    ∀ (items : List (Item Singular)), Body.all s.rules.knows items = true → ∀ cursor,
      s.Accounts (.body items) cursor (body s call items cursor)
  | [], _, cursor => by
    simp only [body]
    exact accounts_pure .bodyEnd rfl
  | i :: rest, hknows, cursor => by
    simp only [Body.all, Bool.and_eq_true] at hknows
    simp only [body]
    intro failures
    refine (item_accounts hs hcall i hknows.1 cursor).bind fun o d => ?_
    cases o with
    | none => exact ensures_pure (.bodyFails d) rfl
    | some m =>
      refine (body_accounts hs hcall rest hknows.2 m.stop).bind fun o drest => ?_
      rw [List.append_assoc]
      cases o with
      | none => exact ensures_pure (.bodyBreaks d drest) rfl
      | some n => exact ensures_pure (.bodyGoes d drest) rfl

theorem item_accounts (hs : s.rules.Sound) (hcall : s.CallsAccount call) :
    ∀ (i : Item Singular), Item.all s.rules.knows i = true → ∀ cursor,
      s.Accounts (.item i) cursor (item s call i cursor)
  | ⟨inner, quantifier⟩, hknows, cursor => by
    simp only [Item.all] at hknows
    simp only [item]
    exact quantified_accounts (singular_accounts hs hcall inner hknows) quantifier cursor

end

/-- A choice has the failures of the alternatives before the one that matches, and then those of
that one. -/
theorem choose_accounts (hs : s.rules.Sound) (hcall : s.CallsAccount call)
    (alternatives : Alternation) (hknows : Alternation.all s.rules.knows alternatives = true)
    (cursor : Nat) : ∀ index failures,
      Ensures (fun progress => progress.trace.failures = failures)
        (choose s call index alternatives cursor) (fun r progress => match r with
          | none => ∃ d : s.Derivation (.choice alternatives) cursor none,
              progress.trace.failures = failures ++ d.failures
          | some (position, m) => ∃ before a after, alternatives = before ++ a :: after ∧
              position = index + before.length ∧
              ∃ (dbefore : s.Derivation (.choice before) cursor none)
                (d : s.Derivation (.body a.body) cursor (some m)),
                progress.trace.failures = failures ++ (dbefore.failures ++ d.failures))
        fun _ _ => True := by
  induction alternatives with
  | nil =>
    intro index failures
    apply Ensures.of_pure
    intro progress hprogress
    exact ⟨.choiceFails, by rw [hprogress]; exact (List.append_nil failures).symm⟩
  | cons a rest ih =>
    intro index failures
    simp only [Alternation.all, Bool.and_eq_true] at hknows
    simp only [choose]
    refine (alternative_accounts hs hcall a hknows.1 cursor).bind fun o d => ?_
    cases o with
    | some m =>
      apply Ensures.of_pure
      intro progress hprogress
      exact ⟨[], a, rest, rfl, rfl, .choiceFails, d, hprogress⟩
    | none =>
      refine (ih hknows.2 (index + 1) (failures ++ d.failures)).imp (fun _ h => h)
        (fun r progress hr => ?_) fun _ _ h => h
      cases r with
      | none =>
        obtain ⟨drest, hprogress⟩ := hr
        exact ⟨.choiceNext d drest, by rw [hprogress, List.append_assoc]; rfl⟩
      | some r =>
        obtain ⟨before, b, after, hsplit, hposition, dbefore, db, hprogress⟩ := hr
        refine ⟨a :: before, b, after, by rw [hsplit, List.cons_append], ?_,
          .choiceNext d dbefore, db, ?_⟩
        · rw [hposition, List.length_cons]
          omega
        · rw [hprogress, List.append_assoc, ← List.append_assoc d.failures]
          rfl

/-- A rule that is rejected is the last of its failures. -/
theorem expand_accounts (hs : s.rules.Tagged s.variants) (hcall : s.CallsAccount call)
    {name : Text} {r : Rule} (hget : s.rules.get? name = some r) (hkind : r.kind = .production)
    (hknows : Alternation.all s.rules.knows r.alternatives = true) (active : List Frame)
    (cursor : Nat) : s.Accounts (.rule name) cursor (s.expand call active r cursor) := by
  obtain rfl := RuleSet.get?_name hget
  intro failures
  apply ensures_silent_bind rfl
  refine Ensures.bind (choose_accounts hs.toSound hcall r.alternatives hknows cursor 0 failures)
    fun o => ?_
  intro progress hchoice
  cases o with
  | none =>
    obtain ⟨d, hprogress⟩ := hchoice
    have hrejected : Ensures (fun progress => progress.trace.failures = failures ++ d.failures)
        (record (.rejected ⟨r.name, cursor⟩ active.length) >>= fun _ => pure none)
        (s.Accounted (.rule r.name) cursor failures) fun _ _ => True := by
      apply ensures_failure_bind
      rw [List.append_assoc]
      exact ensures_pure (.ruleFails hget d) rfl
    exact hrejected progress hprogress
  | some chosen =>
    obtain ⟨index, m⟩ := chosen
    obtain ⟨before, a, after, hsplit, hposition, dbefore, d, hprogress⟩ := hchoice
    rw [Nat.zero_add] at hposition
    subst hposition
    have haccepted : Ensures
        (fun progress => progress.trace.failures = failures ++ (dbefore.failures ++ d.failures))
        (record (.accepted ⟨r.name, cursor⟩ (s.variants.tag r.name before.length) active.length) >>=
          fun _ => pure (some ⟨m.stop, [s.node r cursor before.length m]⟩))
        (s.Accounted (.rule r.name) cursor failures) fun _ _ => True := by
      rw [node_eq hs hget hkind hsplit]
      apply ensures_silent_bind rfl
      exact ensures_pure (.rule hget hsplit dbefore d (Tree.spannedBy_iff.mpr rfl)) rfl
    exact haccepted progress hprogress

end Parts

/-- Calls of rules put the failures of derivations on record, whatever the limit is. -/
theorem rule_accounts (hs : s.rules.Tagged s.variants) (limit : Nat) :
    ∀ active, s.CallsAccount (s.rule limit active) := by
  induction limit with
  | zero =>
    intro active name hproduction cursor failures
    obtain ⟨r, hget, -⟩ := RuleSet.isProduction_iff.mp hproduction
    simp only [rule, enter, hget]
    split
    · exact Ensures.of_throw fun _ _ => trivial
    · exact Ensures.of_throw fun _ _ => trivial
  | succ limit ih =>
    intro active name hproduction cursor failures
    obtain ⟨r, hget, hkind⟩ := RuleSet.isProduction_iff.mp hproduction
    have hknows := hs.knows (RuleSet.mem_of_get? hget) hkind
    simp only [rule, enter, hget]
    split
    · exact Ensures.of_throw fun _ _ => trivial
    · exact expand_accounts hs (ih _) hget hkind hknows active cursor failures

end Session

end GrammarKit
