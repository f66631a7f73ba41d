import GrammarKit.Proofs.Effect
import GrammarKit.Proofs.Parse.Derivation

/-!
What the parser answers has a derivation. Whatever rules are active and however deep calls may be
nested, an answer for a part of a production is an outcome of this part by the rules of ordered
choice, and on the way to it the parser meets no fault.
-/
namespace GrammarKit

def Halt.IsTooDeep (halt : Halt) : Prop := ∃ frame, halt = .tooDeep frame

namespace Attempt

variable {α β : Type}

section Contracts

variable {pre middle : Progress → Prop} {post : α → Progress → Prop}
  {exit : Halt → Progress → Prop}

theorem ensures_record_bind {e : Event} {f : Unit → Attempt α}
    (he : ∀ progress, pre progress → middle (progress.record e))
    (h : Ensures middle (f ()) post exit) : Ensures pre (record e >>= f) post exit :=
  fun progress hprogress => h (progress.record e) (he progress hprogress)

theorem ensures_ofFault_bind {x : Except Fault β} {b : β} (hx : x = .ok b) {f : β → Attempt α}
    (h : Ensures pre (f b) post exit) : Ensures pre (ofFault x >>= f) post exit := by
  rw [hx]
  exact h

end Contracts

variable {good : α → Prop} {bad : Halt → Prop}

theorem record_bind {e : Event} {f : Unit → Attempt α} (h : Yields (f ()) good bad) :
    Yields (record e >>= f) good bad := ensures_record_bind (fun _ _ => trivial) h

theorem ofFault_bind {x : Except Fault β} {b : β} (hx : x = .ok b) {f : β → Attempt α}
    (h : Yields (f b) good bad) : Yields (ofFault x >>= f) good bad := ensures_ofFault_bind hx h

end Attempt

namespace Session

open Attempt

variable {s : Session}

theorem token?_cases (hs : s.rules.Sound) {name : Text} (hknown : s.rules.contains name = true)
    (hlexical : s.rules.isProduction name = false) (cursor : Nat) :
    (∃ token stop, s.token? name cursor = .ok (some (token, stop)) ∧
        s.Takes name cursor token stop) ∨
      (s.token? name cursor = .ok none ∧ ∀ token stop, ¬ s.Takes name cursor token stop) := by
  unfold token?
  cases hinput : s.input with
  | tokens ts =>
    simp only [takes_tokens hinput]
    cases hget : ts[cursor]? with
    | none => simp
    | some token =>
      by_cases hname : token.name = name
      · exact Or.inl ⟨token, cursor + 1, by simp [hname], rfl, hname, rfl⟩
      · refine Or.inr ⟨by simp [hname], ?_⟩
        rintro _ stop ⟨⟨⟩, hname', -⟩
        exact hname hname'
  | text t =>
    obtain ⟨a, ha⟩ := hs.automaton hknown hlexical
    simp only [takes_text hinput, s.automata.get_eq, ha]
    show (∃ token stop, Except.ok (Option.map _ (a.longestAt cursor (t.drop cursor))) = _ ∧ _) ∨
      Except.ok (Option.map _ (a.longestAt cursor (t.drop cursor))) = _ ∧ _
    rcases Automaton.longestAt_drop hs.filled ha t cursor with ⟨stop, hword, hrun⟩ | ⟨hnone, hrun⟩
    · rw [hrun]
      exact Or.inl ⟨_, stop, rfl, hword, rfl⟩
    · rw [hrun]
      exact Or.inr ⟨rfl, fun token stop h => hnone stop h.1⟩

/-- Skipping by the automaton of the whitespace rule. -/
theorem skipFrom_skips (hs : s.rules.Sound) {t : Text} (hinput : s.input = .text t) {r : Rule}
    (hr : s.rules.whitespace = some r) {a : Automaton}
    (ha : Automaton.ofRule s.rules r.name = .ok a) (cursor : Nat) (rest : Text)
    (hrest : t.drop cursor = rest) : s.Skips cursor (skipFrom a cursor rest) := by
  have hblank : ∀ {cursor stop}, s.Blank cursor stop ↔
      t.LongestWord s.rules r.name cursor stop := by
    intro cursor stop
    rw [blank_text hinput]
    constructor
    · intro hwords
      obtain ⟨r', hr', hword⟩ := hwords
      rw [hr] at hr'
      cases hr'
      exact hword
    · exact fun hword => ⟨r, hr, hword⟩
  have hlongest := fun cursor => Automaton.longestAt_drop hs.filled ha t cursor
  fun_induction skipFrom a cursor rest with
  | case1 cursor =>
    refine .done fun stop h => ?_
    have hlength := (hblank.mp h).le_length
    have hend : t.length ≤ cursor := List.drop_eq_nil_iff.mp hrest
    omega
  | case2 cursor u rest hnone =>
    rw [← hrest] at hnone
    rcases hlongest cursor with ⟨stop, -, hrun⟩ | ⟨hno, -⟩
    · rw [hnone] at hrun
      cases hrun
    · exact .done fun stop h => absurd (hblank.mp h) (hno stop)
  | case3 cursor u rest stop hsome hlt ih =>
    rw [← hrest] at hsome
    rcases hlongest cursor with ⟨stop', hword, hrun⟩ | ⟨-, hrun⟩
    · rw [hsome] at hrun
      cases hrun
      refine .more (hblank.mpr hword) hlt (ih ?_)
      rw [← hrest, List.drop_drop]
      congr 1
      omega
    · rw [hsome] at hrun
      cases hrun
  | case4 cursor u rest stop hsome hlt =>
    rw [← hrest] at hsome
    rcases hlongest cursor with ⟨stop', hword, hrun⟩ | ⟨-, hrun⟩
    · rw [hsome] at hrun
      cases hrun
      refine .done fun stop' h => ?_
      rw [(hblank.mp h).unique hword]
      exact hlt
    · rw [hsome] at hrun
      cases hrun

theorem skip_cases (hs : s.rules.Sound) (cursor : Nat) :
    ∃ stop, s.skip cursor = .ok stop ∧ s.Skips cursor stop := by
  unfold skip
  cases hinput : s.input with
  | tokens ts => exact ⟨cursor, rfl, .done fun stop h => absurd h (not_blank_tokens hinput)⟩
  | text t =>
    cases hr : s.rules.whitespace with
    | none =>
      refine ⟨cursor, rfl, .done fun stop h => ?_⟩
      obtain ⟨r, hr', -⟩ := (blank_text hinput).mp h
      rw [hr] at hr'
      cases hr'
    | some r =>
      obtain ⟨hmem, hkind⟩ := RuleSet.whitespace_eq_some hr
      have hlexical : r.isLexical = true := by simp [Rule.isLexical, hkind, RuleKind.isLexical]
      obtain ⟨a, ha⟩ := Automaton.exists_ofRule hs.resolved hs.acyclic hmem hlexical
      refine ⟨_, ?_, skipFrom_skips hs hinput hr ha cursor _ rfl⟩
      simp only [s.automata.get_eq, ha]
      rfl

theorem takeToken_sound (hs : s.rules.Sound) {name : Text}
    (hknown : s.rules.contains name = true) (hlexical : s.rules.isProduction name = false)
    (span : Span) (cursor : Nat) {bad : Halt → Prop} :
    Yields (s.takeToken name cursor) (s.Derives (.singular (.symbol name span)) cursor) bad := by
  unfold takeToken
  rcases token?_cases hs hknown hlexical cursor with ⟨token, middle, htoken, htakes⟩ | ⟨htoken, hno⟩
  · obtain ⟨stop, hskip, hskips⟩ := skip_cases hs middle
    refine ofFault_bind htoken (ofFault_bind hskip (record_bind ?_))
    exact Yields.of_pure ⟨.token hlexical htakes hskips⟩
  · refine ofFault_bind htoken (record_bind ?_)
    exact Yields.of_pure ⟨.tokenFails hlexical hno⟩

theorem settle_some (hs : s.rules.Sound) (m : Match) {good : Outcome → Prop} {bad : Halt → Prop}
    (h : ∀ stop, s.Skips m.stop stop → good (some ⟨stop, m.children⟩)) :
    Yields (s.settle (some m)) good bad := by
  obtain ⟨stop, hskip, hskips⟩ := skip_cases hs m.stop
  exact ofFault_bind hskip (Yields.of_pure (h stop hskips))

def SoundCalls (s : Session) (call : Text → Nat → Attempt Outcome) (bad : Halt → Prop) : Prop :=
  ∀ name, s.rules.isProduction name = true → ∀ cursor,
    Yields (call name cursor) (s.Derives (.rule name) cursor) bad

section Soundness

variable {call : Text → Nat → Attempt Outcome} {bad : Halt → Prop}

/-- A row of matches is a row of derivations, and it counts none if there is no first match. -/
theorem takeAll_sound {x : Singular} {part : Nat → Attempt Outcome}
    (hpart : ∀ cursor, Yields (part cursor) (s.Derives (.singular x) cursor) bad) (cursor : Nat) :
    Yields (takeAll s.length part cursor) (fun r => s.Derives (.row x) cursor (some r.2) ∧
      (if r.1 = 0 then s.Derives (.singular x) cursor none
      else ∃ m, s.Derives (.singular x) cursor (some m))) bad := by
  induction hleft : s.length - cursor using Nat.strong_induction_on generalizing cursor with
  | _ left ih =>
    unfold takeAll
    refine record_bind ((hpart cursor).bind fun o ho => ?_)
    cases o with
    | none =>
      obtain ⟨h⟩ := ho
      exact Yields.of_pure ⟨⟨.rowEnd h⟩, by simpa using ⟨h⟩⟩
    | some m =>
      obtain ⟨h⟩ := ho
      have hbounds := h.bounds m rfl
      simp only
      split
      · next hlt =>
        refine (ih (s.length - m.stop) (by omega) m.stop rfl).bind fun r hr => ?_
        obtain ⟨⟨hrest⟩, -⟩ := hr
        exact Yields.of_pure ⟨⟨.rowGoes h hlt.1 hrest⟩, by simpa using ⟨m, ⟨h⟩⟩⟩
      · next hge =>
        have hstop : ¬ cursor < m.stop := by
          rw [s.length_eq] at hge
          omega
        exact Yields.of_pure ⟨⟨.rowStays h hstop⟩, by simpa using ⟨m, ⟨h⟩⟩⟩

theorem quantified_sound {x : Singular} {part : Nat → Attempt Outcome}
    (hpart : ∀ cursor, Yields (part cursor) (s.Derives (.singular x) cursor) bad)
    (quantifier : Quantifier) (cursor : Nat) :
    Yields (s.quantified quantifier part cursor) (s.Derives (.item ⟨x, quantifier⟩) cursor)
      bad := by
  unfold quantified
  cases quantifier with
  | one => exact (hpart cursor).imp fun o ⟨h⟩ => ⟨.one h⟩
  | maybe =>
    refine (hpart cursor).bind fun o ⟨h⟩ => ?_
    cases o with
    | none => exact Yields.of_pure ⟨.absent h⟩
    | some m => exact Yields.of_pure ⟨.present h⟩
  | any =>
    refine (takeAll_sound hpart cursor).bind fun r hr => ?_
    obtain ⟨⟨h⟩, -⟩ := hr
    exact Yields.of_pure ⟨.any h⟩
  | many =>
    refine (takeAll_sound hpart cursor).bind fun r hr => Yields.of_pure ?_
    obtain ⟨⟨h⟩, hfirst⟩ := hr
    by_cases hcount : r.1 = 0
    · rw [if_pos hcount] at hfirst ⊢
      obtain ⟨hfirst⟩ := hfirst
      exact ⟨.manyFails hfirst⟩
    · rw [if_neg hcount] at hfirst ⊢
      obtain ⟨m, ⟨hfirst⟩⟩ := hfirst
      exact ⟨.many hfirst h⟩

mutual

/-- What the parser answers for a part has a derivation, if that is so for the rules it calls. -/
theorem singular_sound (hs : s.rules.Sound) (hcall : s.SoundCalls call bad) :
    ∀ (x : Singular), x.all s.rules.knows = true → ∀ cursor,
      Yields (singular s call x cursor) (s.Derives (.singular x) cursor) bad
  | .group alternatives, hknows, cursor => by
    simp only [Singular.all] at hknows
    simp only [singular]
    refine record_bind ?_
    refine (alternation_sound hs hcall alternatives hknows cursor).bind fun o ⟨h⟩ => ?_
    cases o with
    | none => exact Yields.of_pure ⟨.groupFails h⟩
    | some m => exact settle_some hs m fun stop hskips => ⟨.group h hskips⟩
  | .symbol name span, hknows, cursor => by
    simp only [Singular.all, RuleSet.knows] at hknows
    simp only [singular]
    by_cases hproduction : s.rules.isProduction name = true
    · rw [if_pos hproduction]
      refine (hcall name hproduction cursor).bind fun o ⟨h⟩ => ?_
      cases o with
      | none => exact Yields.of_pure ⟨.callFails hproduction h⟩
      | some m => exact settle_some hs m fun stop hskips => ⟨.call hproduction h hskips⟩
    · rw [if_neg hproduction]
      exact takeToken_sound hs hknows (by simpa using hproduction) span cursor
  | .literal source matchers span, hknows, _ => by simp [Singular.all, RuleSet.knows] at hknows
  | .charset source matcher span, hknows, _ => by simp [Singular.all, RuleSet.knows] at hknows

theorem alternation_sound (hs : s.rules.Sound) (hcall : s.SoundCalls call bad) :
    ∀ (alternatives : List (Alternative (Item Singular))),
      Alternation.all s.rules.knows alternatives = true → ∀ cursor,
      Yields (alternation s call alternatives cursor) (s.Derives (.choice alternatives) cursor) bad
  | [], _, cursor => by
    simp only [alternation]
    exact Yields.of_pure ⟨.choiceFails⟩
  | a :: rest, hknows, cursor => by
    simp only [Alternation.all, Bool.and_eq_true] at hknows
    simp only [alternation]
    refine (alternative_sound hs hcall a hknows.1 cursor).bind fun o ⟨h⟩ => ?_
    cases o with
    | none =>
      exact (alternation_sound hs hcall rest hknows.2 cursor).imp fun o ⟨hrest⟩ =>
        ⟨.choiceNext h hrest⟩
    | some m => exact Yields.of_pure ⟨.choiceFirst h⟩

theorem alternative_sound (hs : s.rules.Sound) (hcall : s.SoundCalls call bad) :
    ∀ (a : Alternative (Item Singular)), Alternative.all s.rules.knows a = true → ∀ cursor,
      Yields (alternative s call a cursor) (s.Derives (.body a.body) cursor) bad
  | ⟨_, _, items, _⟩, hknows, cursor => by
    simp only [Alternative.all] at hknows
    simp only [alternative]
    exact body_sound hs hcall items hknows cursor

theorem body_sound (hs : s.rules.Sound) (hcall : s.SoundCalls call bad) :
    ∀ (items : List (Item Singular)), Body.all s.rules.knows items = true → ∀ cursor,
      Yields (body s call items cursor) (s.Derives (.body items) cursor) bad
  | [], _, cursor => by
    simp only [body]
    exact Yields.of_pure ⟨.bodyEnd⟩
  | i :: rest, hknows, cursor => by
    simp only [Body.all, Bool.and_eq_true] at hknows
    simp only [body]
    refine (item_sound hs hcall i hknows.1 cursor).bind fun o ⟨h⟩ => ?_
    cases o with
    | none => exact Yields.of_pure ⟨.bodyFails h⟩
    | some m =>
      refine (body_sound hs hcall rest hknows.2 m.stop).bind fun o ⟨hrest⟩ => ?_
      cases o with
      | none => exact Yields.of_pure ⟨.bodyBreaks h hrest⟩
      | some n => exact Yields.of_pure ⟨.bodyGoes h hrest⟩

theorem item_sound (hs : s.rules.Sound) (hcall : s.SoundCalls call bad) :
    ∀ (i : Item Singular), Item.all s.rules.knows i = true → ∀ cursor,
      Yields (item s call i cursor) (s.Derives (.item i) cursor) bad
  | ⟨inner, quantifier⟩, hknows, cursor => by
    simp only [Item.all] at hknows
    simp only [item]
    exact quantified_sound (singular_sound hs hcall inner hknows) quantifier cursor

end

/-- The alternative that is chosen comes after alternatives that fail. -/
theorem choose_sound (hs : s.rules.Sound) (hcall : s.SoundCalls call bad)
    (alternatives : Alternation) (hknows : Alternation.all s.rules.knows alternatives = true)
    (cursor : Nat) : ∀ index, Yields (choose s call index alternatives cursor) (fun r =>
      match r with
      | none => s.Derives (.choice alternatives) cursor none
      | some (position, m) => ∃ before a after, alternatives = before ++ a :: after ∧
          position = index + before.length ∧ s.Derives (.choice before) cursor none ∧
          s.Derives (.body a.body) cursor (some m)) bad := by
  induction alternatives with
  | nil => exact fun index => Yields.of_pure ⟨.choiceFails⟩
  | cons a rest ih =>
    intro index
    simp only [Alternation.all, Bool.and_eq_true] at hknows
    simp only [choose]
    refine (alternative_sound hs hcall a hknows.1 cursor).bind fun o ⟨h⟩ => ?_
    cases o with
    | some m =>
      exact Yields.of_pure ⟨[], a, rest, rfl, rfl, ⟨.choiceFails⟩, ⟨h⟩⟩
    | none =>
      refine (ih hknows.2 (index + 1)).imp fun r hr => ?_
      cases r with
      | none =>
        obtain ⟨hrest⟩ := hr
        exact ⟨.choiceNext h hrest⟩
      | some r =>
        obtain ⟨before, b, after, hsplit, hposition, ⟨hbefore⟩, hmatch⟩ := hr
        refine ⟨a :: before, b, after, by simp [hsplit], ?_, ⟨.choiceNext h hbefore⟩, hmatch⟩
        rw [hposition, List.length_cons]
        omega

end Soundness

/-- The node of an alternative has its tag, and it stands where its children do. -/
theorem node_eq (hs : s.rules.Tagged s.variants) {name : Text} {r : Rule}
    (hget : s.rules.get? name = some r) (hkind : r.kind = .production)
    {before after : Alternation} {a : Alternative (Item Singular)}
    (hsplit : r.alternatives = before ++ a :: after) (cursor : Nat) (m : Match) :
    s.node r cursor before.length m = .node name (a.tag name before.length) m.children
      (Tree.spanOf m.children (s.input.position cursor)) := by
  obtain rfl : r.name = name := RuleSet.get?_name hget
  have hmem : r ∈ s.rules.productions :=
    List.mem_filter.mpr ⟨RuleSet.mem_of_get? hget, by simpa using hkind⟩
  have ha : r.alternatives[before.length]? = some a := by
    rw [hsplit, List.getElem?_append_right (Nat.le_refl _), Nat.sub_self]
    rfl
  rw [node, hs.tag_eq hmem ha]

/-- What the parser answers for a production has a derivation, and it never ends with a fault. -/
theorem rule_sound (hs : s.rules.Tagged s.variants) (limit : Nat) :
    ∀ active, s.SoundCalls (s.rule limit active) fun halt => ∀ f, halt ≠ .fault f := by
  induction limit with
  | zero =>
    intro active name hproduction cursor
    obtain ⟨r, hget, -⟩ := RuleSet.isProduction_iff.mp hproduction
    simp only [rule, enter, hget]
    split
    · exact Yields.of_throw nofun
    · exact Yields.of_throw nofun
  | succ limit ih =>
    intro active name hproduction cursor
    obtain ⟨r, hget, hkind⟩ := RuleSet.isProduction_iff.mp hproduction
    simp only [rule, enter, hget]
    split
    · exact Yields.of_throw nofun
    · have hknows := hs.knows (RuleSet.mem_of_get? hget) hkind
      refine record_bind ?_
      refine (choose_sound hs.toSound (ih _) r.alternatives hknows cursor 0).bind fun o ho => ?_
      cases o with
      | none =>
        obtain ⟨h⟩ := ho
        exact record_bind (Yields.of_pure ⟨.ruleFails hget h⟩)
      | some chosen =>
        obtain ⟨before, a, after, hsplit, hposition, ⟨hbefore⟩, ⟨h⟩⟩ := ho
        rw [Nat.zero_add] at hposition
        simp only [hposition]
        rw [node_eq hs hget hkind hsplit]
        exact record_bind (Yields.of_pure
          ⟨.rule hget hsplit hbefore h (Tree.spannedBy_iff.mpr rfl)⟩)

end Session

namespace Parser

variable {p : Parser} {input : Input}

/-- A parse tries its start rule at the first cursor after white space. -/
theorem run_attempt {cursor : Nat} (hskip : (p.session input).skip 0 = .ok cursor) (limit : Nat)
    (start : Text) (progress : Progress) :
    (p.attempt limit start input).run.run progress =
      ((p.session input).rule limit [] start cursor).run.run progress := by
  simp only [attempt, hskip]
  rfl

/-- A match of a production is one node. -/
theorem judge_cases {s : Session} {start : Text} {cursor : Nat} {m : Match}
    (h : s.Derives (.rule start) cursor (some m)) (allowTrailing : Bool)
    (farthest : Option Farthest) :
    (∃ tree, judge start input allowTrailing farthest m = .ok tree) ∨
      ∃ e, judge start input allowTrailing farthest m = .error (.parse e) := by
  obtain ⟨h⟩ := h
  cases h with
  | rule =>
    unfold judge
    split
    · split
      · exact Or.inr ⟨_, rfl⟩
      · exact Or.inr ⟨_, rfl⟩
    · exact Or.inl ⟨_, rfl⟩

/-- A parse with rules that are in order ends with a tree or with an error of the input. -/
theorem parse_cases (hp : p.rules.Tagged p.variants) (limit : Nat) (start : Text) (input : Input)
    (allowTrailing : Bool) :
    (∃ tree, (p.parse limit start input allowTrailing).1 = .ok tree) ∨
      ∃ e, (p.parse limit start input allowTrailing).1 = .error (.parse e) := by
  unfold parse
  by_cases hstart : p.rules.isProduction start = true
  · rw [if_pos hstart]
    obtain ⟨cursor, hskip, -⟩ := (p.session input).skip_cases hp.toSound 0
    have hrule := (p.session input).rule_sound hp limit [] start hstart cursor
    rw [run_attempt hskip]
    cases hrun : ((p.session input).rule limit [] start cursor).run.run Progress.initial with
    | mk result progress =>
      cases result with
      | error halt =>
        have hhalt := hrule.failure hrun
        cases halt with
        | noProgress frame => exact Or.inr ⟨_, rfl⟩
        | tooDeep frame => exact Or.inr ⟨_, rfl⟩
        | fault f => exact absurd rfl (hhalt f)
      | ok o =>
        cases o with
        | none => exact Or.inr ⟨_, rfl⟩
        | some m => exact judge_cases (hrule.answer hrun) allowTrailing progress.farthest
  · rw [if_neg hstart]
    exact Or.inr ⟨_, rfl⟩

end Parser

end GrammarKit
