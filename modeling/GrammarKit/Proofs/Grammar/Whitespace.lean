import GrammarKit.Proofs.Grammar.Coverage
import GrammarKit.Proofs.Grammar.Nesting
import GrammarKit.Proofs.Grammar.ParseTree
import GrammarKit.Proofs.Parse.Assembly

/-!
Where a parse of characters stands. White space is passed over before the start rule and after each
singular, and nowhere else, so all that is tried is tried at a cursor after white space. Main
statement: there is no white space left at any cursor of a parse. Hence what takes no text leaves
the cursor where it is and ends a repetition, and each node starts where its rule was called.
-/
namespace GrammarKit

def Event.cursor : Event → Nat
  | entered frame _ => frame.cursor
  | accepted frame _ _ => frame.cursor
  | rejected frame _ => frame.cursor
  | tokenTaken _ cursor _ => cursor
  | tokenMissed _ cursor => cursor
  | groupTried cursor => cursor
  | iterationTried cursor => cursor

/-- No word of the whitespace rule but the empty one stands at a cursor. -/
def Text.ClearAt (rs : RuleSet) (t : Text) (cursor : Nat) : Prop :=
  ∀ r, rs.whitespace = some r → ∀ stop w, t.Spells cursor stop w → Word rs (.rule r.name) w →
    stop = cursor

def Tree.Void (trees : List Tree) : Prop := ∀ token ∈ tokensOf trees, token.text = []

theorem Tree.void_append {first rest : List Tree} :
    Void (first ++ rest) ↔ Void first ∧ Void rest := by
  simp only [Void, tokensOf_append, List.forall_mem_append]

/-- The first of several trees says where they start. -/
theorem Tree.start_spanOf_append {first : List Tree} (h : first ≠ []) (rest : List Tree)
    (offset : Int) : (spanOf (first ++ rest) offset).start = (spanOf first offset).start := by
  cases first with
  | nil => exact absurd rfl h
  | cons t first => rfl

/-- Where a word of a rule stands, the longest one reaches at least as far. -/
theorem Text.exists_longestWord {rs : RuleSet} (hfilled : rs.LiteralsFilled) {name : Text}
    {a : Automaton} (ha : Automaton.ofRule rs name = .ok a) {t : Text} {cursor : Nat} {stop : Int}
    {w : List CodePoint} (hspell : t.Spells cursor stop w) (hword : Word rs (.rule name) w) :
    ∃ last : Nat, t.LongestWord rs name cursor last ∧ stop ≤ last := by
  rcases Automaton.longestMatch_cases hfilled ha t cursor with ⟨last, hlast, -⟩ | ⟨hnone, -⟩
  · obtain ⟨v, hspell', hword'⟩ := hlast.1
    obtain ⟨n, rfl, -⟩ := spells_iff_reads.mp hspell'
    refine ⟨cursor + n, ⟨⟨v, hspell', hword'⟩, ?_⟩, hlast.2 ⟨w, hspell, hword⟩⟩
    intro other hother
    have hle := hlast.2 hother
    omega
  · exact absurd hword (hnone stop w hspell)

namespace Session

open Attempt

variable {s : Session} {t : Text}

/-- A cursor after white space. -/
def Settled (s : Session) (cursor : Nat) : Prop := s.skip cursor = .ok cursor

theorem Settled.eq {cursor stop : Nat} (h : s.Settled cursor) (hskip : s.skip cursor = .ok stop) :
    stop = cursor := by
  rw [h] at hskip
  cases hskip
  rfl

theorem Settled.not_blank (hs : s.rules.Sound) {cursor : Nat} (h : s.Settled cursor) (stop : Nat)
    (hblank : s.Blank cursor stop) : ¬ cursor < stop := by
  obtain ⟨last, hskip, hskips⟩ := skip_cases hs cursor
  obtain rfl := h.eq hskip
  cases hskips with
  | done hdone => exact hdone stop hblank
  | more _ hlt hrest =>
    have hbounds := hrest.bounds
    omega

/-- At such a cursor the longest word of the whitespace rule is empty, and so is every other. -/
theorem Settled.clearAt (hs : s.rules.Sound) (hinput : s.input = .text t) {cursor : Nat}
    (h : s.Settled cursor) : t.ClearAt s.rules cursor := by
  intro r hr stop w hspell hword
  obtain ⟨hmem, hkind⟩ := RuleSet.whitespace_eq_some hr
  have hlexical : r.isLexical = true := by simp [Rule.isLexical, hkind, RuleKind.isLexical]
  obtain ⟨a, ha⟩ := Automaton.exists_ofRule hs.resolved hs.acyclic hmem hlexical
  obtain ⟨last, hlast, hle⟩ := Text.exists_longestWord hs.filled ha hspell hword
  have hblank : s.Blank cursor last := (blank_text hinput).mpr ⟨r, hr, hlast⟩
  have hnone := h.not_blank hs last hblank
  obtain ⟨n, rfl, -⟩ := Text.spells_iff_reads.mp hspell
  omega

/-- Cursors after white space are handed on: white space is passed over behind each token. -/
theorem handsOn_settled (hs : s.rules.Sound) : s.HandsOn s.Settled where
  token := fun _ _ hskips => skip_fixed hs hskips
  skip := fun _ hskips => skip_fixed hs hskips

theorem Orderly.cursor {C : Nat → Prop} {e : Event} (h : s.Orderly C e) : C e.cursor := by
  cases e with
  | entered frame active => exact Stack.cursor h frame List.mem_cons_self
  | accepted frame tag depth => exact h
  | rejected frame depth => exact h
  | tokenTaken name cursor stop => exact h.1
  | tokenMissed name cursor => exact h
  | groupTried cursor => exact h
  | iterationTried cursor => exact h

/-- Trees that stand at a cursor: the first of them starts there, and if none of them takes text the
cursor behind them is the same. -/
def Anchored (s : Session) (cursor stop : Nat) (trees : List Tree) : Prop :=
  s.Settled cursor → (Tree.spanOf trees cursor).start = cursor ∧ (Tree.Void trees → stop = cursor)

theorem anchored_assembles (hinput : s.input = .text t) : s.Assembles fun _ => s.Anchored where
  mono := fun _ h => h
  nothing := fun _ cursor _ => ⟨rfl, fun _ => rfl⟩
  skip := fun hskip hcursor => ⟨rfl, fun _ => hcursor.eq hskip⟩
  token := by
    intro trace name cursor token stop htoken _
    simp only [token?, hinput] at htoken
    obtain ⟨a, -, htoken⟩ := exists_of_bind_eq_ok htoken
    obtain ⟨stop', hstop, hfound⟩ := Option.map_eq_some_iff.mp (Except.ok.inj htoken)
    cases hfound
    refine ⟨rfl, ?_⟩
    intro hvoid
    have htext := hvoid _ (List.mem_singleton_self _)
    have hbounds := Automaton.longestAt_bounds hstop
    rcases List.take_eq_nil_iff.mp htext with hzero | hend
    · omega
    · rw [hend, List.length_nil] at hbounds
      omega
  append := by
    intro trace cursor middle stop first rest hfirst hrest hcursor
    obtain ⟨hstart, hstays⟩ := hfirst hcursor
    constructor
    · by_cases hnil : first = []
      · subst hnil
        obtain rfl : middle = cursor := hstays (by simp [Tree.Void, Tree.tokensOf])
        exact (hrest hcursor).1
      · rw [Tree.start_spanOf_append hnil]
        exact hstart
    · intro hvoid
      obtain ⟨hvoid, hvoid'⟩ := Tree.void_append.mp hvoid
      obtain rfl : middle = cursor := hstays hvoid
      exact (hrest hcursor).2 hvoid'
  node := by
    intro limit active r cursor index before after m _ hchildren hcursor
    obtain ⟨hstart, hstays⟩ := hchildren hcursor
    have hposition : s.input.position cursor = cursor := by
      rw [hinput]
      rfl
    constructor
    · show (Tree.spanOf m.children (s.input.position cursor)).start = cursor
      rw [hposition]
      exact hstart
    · intro hvoid
      apply hstays
      intro token htoken
      apply hvoid
      rw [Tree.tokensOf, node, Tree.tokens, Tree.tokensOf, List.append_nil]
      exact htoken

/-- A match that does not get ahead ends its repetition. -/
theorem takeAll_of_stop_eq {length cursor : Nat} {part : Nat → Attempt Outcome}
    {before after : Progress} {m : Match}
    (hpart : (part cursor).run.run (before.record (.iterationTried cursor)) = (.ok (some m), after))
    (hstop : m.stop = cursor) :
    (takeAll length part cursor).run.run before = (.ok (1, m), after) := by
  have hgo : ¬ (cursor < m.stop ∧ cursor < length) := by omega
  unfold takeAll
  rw [Ensures.run_bind]
  show (part cursor >>= _).run.run (before.record (.iterationTried cursor)) = _
  rw [Ensures.run_bind, hpart]
  simp only [if_neg hgo]
  rfl

/-- What holds at a cursor after white space: a singular that takes no text stays there, a
repetition ends with an iteration that takes no text, and a rule makes a node that starts there. -/
structure Anchors (s : Session) (call : Text → Nat → Attempt Outcome) (cursor : Nat) : Prop where
  singular_stays : ∀ {x before after m},
    (singular s call x cursor).run.run before = (.ok (some m), after) → Tree.Void m.children →
      m.stop = cursor
  repetition_ends : ∀ {x before after m},
    (singular s call x cursor).run.run (before.record (.iterationTried cursor)) =
        (.ok (some m), after) → Tree.Void m.children →
      (takeAll s.length (singular s call x) cursor).run.run before = (.ok (1, m), after)
  node_starts : ∀ {name before after m},
    (call name cursor).run.run before = (.ok (some m), after) →
      ∃ tag children span, m.children = [.node name tag children span] ∧ span.start = cursor

theorem anchors_of_settled (hinput : s.input = .text t) {cursor : Nat} (hcursor : s.Settled cursor)
    (limit : Nat) (active : List Frame) : s.Anchors (s.rule limit active) cursor := by
  have hP := anchored_assembles hinput
  have hstays : ∀ {x before after m},
      (singular s (s.rule limit active) x cursor).run.run before = (.ok (some m), after) →
        Tree.Void m.children → m.stop = cursor := by
    intro x before after m hrun
    have hparts := singular_assembles hP (rule_assembles hP limit active) x cursor before
    exact ((hparts.answer hrun).2 m rfl hcursor).2
  refine ⟨hstays, ?_, ?_⟩
  · intro x before after m hrun hvoid
    exact takeAll_of_stop_eq hrun (hstays hrun hvoid)
  · intro name before after m hrun
    have hcall := rule_assembles_node hP limit active name cursor before
    obtain ⟨hanchored, tag, children, span, hm⟩ := (hcall.answer hrun).2 m rfl
    refine ⟨tag, children, span, hm, ?_⟩
    have hstart := (hanchored hcursor).1
    rw [hm] at hstart
    exact hstart

/-- A tree that a call on record came to. -/
def ComesFrom (s : Session) (trace : Trace) (frame : Frame) (x : Tree) : Prop :=
  ∃ limit active before after stop,
    s.Calls limit active frame before after ⟨stop, [x]⟩ ∧ after.trace <:+ trace

def Recorded (s : Session) (trace : Trace) (_cursor _stop : Nat) (trees : List Tree) : Prop :=
  ∀ c ∈ trees, ∀ rule tag children span, (Tree.node rule tag children span).Within c →
    ∃ cursor, s.ComesFrom trace ⟨rule, cursor⟩ (.node rule tag children span)

theorem recorded_assembles (s : Session) : s.Assembles s.Recorded where
  mono := by
    intro trace trace' cursor stop trees hgrown h c hc rule tag children span hx
    obtain ⟨entry, hcomes⟩ := h c hc rule tag children span hx
    obtain ⟨limit, active, before, after, last, hcalls, hafter⟩ := hcomes
    exact ⟨entry, limit, active, before, after, last, hcalls, hafter.trans hgrown⟩
  nothing := fun _ _ c hc => absurd hc List.not_mem_nil
  skip := fun _ c hc => absurd hc List.not_mem_nil
  token := by
    intro trace name cursor token stop _ c hc rule tag children span hx
    rw [List.mem_singleton.mp hc] at hx
    cases hx
  append := by
    intro trace cursor middle stop first rest hfirst hrest c hc
    rcases List.mem_append.mp hc with hc | hc
    · exact hfirst c hc
    · exact hrest c hc
  node := by
    intro limit active r cursor index before after m hcalls hchildren c hc rule tag children span hx
    rw [List.mem_singleton.mp hc] at hx
    cases hx with
    | refl => exact ⟨cursor, limit, active, before, after, m.stop, hcalls, List.suffix_rfl⟩
    | child hc hx => exact hchildren _ hc rule tag children span hx

end Session

inductive ParseError.GivesUp (position : Int) : ParseError → Prop where
  | noProgress (rule : Text) : GivesUp position (.noProgress position rule)
  | tooDeep (rule : Text) : GivesUp position (.tooDeep position rule)

namespace Parser

variable {p : Parser} {limit : Nat} {start : Text} {input : Input} {allowTrailing : Bool}

/-- All that a parse puts on record stands at cursors after white space, and so does the call at
which it is given up. -/
theorem parse_settled (hp : p.rules.Sound) :
    (∀ e ∈ (p.parse limit start input allowTrailing).2, (p.session input).Settled e.cursor) ∧
    ∀ e position, (p.parse limit start input allowTrailing).1 = .error (.parse e) →
      e.GivesUp position →
        ∃ cursor, position = input.position cursor ∧ (p.session input).Settled cursor := by
  unfold parse
  by_cases hstart : p.rules.isProduction start = true
  · obtain ⟨cursor, hskip, hskips⟩ := (p.session input).skip_cases hp 0
    have hminds := (p.session input).minds_trace hp (Session.handsOn_settled hp)
    have hrule := Session.rule_keeps_haltsAt hminds limit (Session.Stack.nil _ _) start hstart
      cursor (Session.skip_fixed hp hskips) Progress.initial (by simp [Progress.initial])
    rw [if_pos hstart, run_attempt hskip]
    generalize ((p.session input).rule limit [] start cursor).run.run Progress.initial = run
      at hrule ⊢
    obtain ⟨halt | o, progress⟩ := run
    · refine ⟨fun e he => (hrule.1 e he).cursor, ?_⟩
      intro e position herror hgives
      cases halt with
      | noProgress frame =>
        cases herror
        cases hgives
        exact ⟨frame.cursor, rfl, hrule.2⟩
      | tooDeep frame =>
        cases herror
        cases hgives
        exact ⟨frame.cursor, rfl, hrule.2⟩
      | fault f => cases herror
    · refine ⟨fun e he => (hrule.1 e he).cursor, ?_⟩
      intro e position herror hgives
      cases o with
      | none =>
        cases herror
        cases hgives
      | some m =>
        obtain ⟨-, ⟨-, -, -, rfl⟩ | ⟨-, rfl⟩⟩ := judge_eq_error herror
        · cases hgives
        · cases hgives
  · rw [if_neg hstart]
    refine ⟨by simp, ?_⟩
    intro e position herror hgives
    cases herror
    cases hgives

/-- The nodes of a parse tree come from calls on record. -/
theorem parse_recorded (hp : p.rules.Sound) {root : Tree}
    (h : (p.parse limit start input allowTrailing).1 = .ok root) :
    ∀ rule tag children span, (Tree.node rule tag children span).Within root →
      ∃ cursor, (p.session input).ComesFrom (p.parse limit start input allowTrailing).2
        ⟨rule, cursor⟩ (.node rule tag children span) := by
  unfold parse at h ⊢
  by_cases hstart : p.rules.isProduction start = true
  · obtain ⟨cursor, hskip, -⟩ := (p.session input).skip_cases hp 0
    rw [if_pos hstart, run_attempt hskip] at h ⊢
    have hrule := Session.rule_assembles (p.session input).recorded_assembles limit [] start cursor
      Progress.initial
    generalize hrun : ((p.session input).rule limit [] start cursor).run.run Progress.initial =
      run at h ⊢
    obtain ⟨halt | o, progress⟩ := run
    · cases h
    · cases o with
      | none => cases h
      | some m =>
        obtain ⟨-, rest, hchildren⟩ := judge_eq_ok h
        apply (hrule.answer hrun).2 m rfl root
        rw [hchildren]
        exact List.mem_cons_self
  · rw [if_neg hstart] at h
    cases h

end Parser

namespace Session

/-- A node that comes from a call on record starts at the cursor of the call, if all that is on
record stands at cursors after white space. -/
theorem ComesFrom.start_eq {s : Session} {t : Text} (hinput : s.input = .text t) {trace : Trace}
    (htrace : ∀ e ∈ trace, s.Settled e.cursor) {frame : Frame} {x : Tree}
    (h : s.ComesFrom trace frame x) : x.span.start = frame.cursor := by
  obtain ⟨limit, active, before, after, stop, hcalls, hafter⟩ := h
  have hentered : .entered frame active ∈ trace :=
    hafter.subset (hcalls.entered.subset List.mem_cons_self)
  have hcursor : s.Settled frame.cursor := htrace _ hentered
  obtain ⟨tag, children, span, hx, hstart⟩ :=
    (anchors_of_settled hinput hcursor limit active).node_starts hcalls.run
  cases hx
  exact hstart

end Session

/-- A parse of characters stands at cursors where no white space is left: all that it tries is tried
there. So what takes no text leaves the cursor as it is and ends a repetition, and each node starts
at the cursor where its rule was called. -/
theorem Grammar.cursors_past_whitespace {source whitespaceName : Text} {g : Grammar}
    (hg : compile source whitespaceName = .ok g) (limit : Nat) (start input : Text)
    (allowTrailing : Bool) :
    (∀ e ∈ (g.parser.parse limit start (.text input) allowTrailing).2,
      (g.parser.session (.text input)).Settled e.cursor ∧ input.ClearAt g.rules e.cursor) ∧
    (∀ e position, (g.parser.parse limit start (.text input) allowTrailing).1 =
        .error (.parse e) → e.GivesUp position →
      ∃ cursor : Nat, position = cursor ∧ (g.parser.session (.text input)).Settled cursor ∧
        input.ClearAt g.rules cursor) ∧
    (∀ cursor, (g.parser.session (.text input)).Settled cursor → ∀ limit active,
      (g.parser.session (.text input)).Anchors
        ((g.parser.session (.text input)).rule limit active) cursor) ∧
    ∀ root, (g.parser.parse limit start (.text input) allowTrailing).1 = .ok root →
      ∀ rule tag children span, (Tree.node rule tag children span).Within root →
        ∃ cursor : Nat, span.start = cursor ∧
          (g.parser.session (.text input)).ComesFrom
            (g.parser.parse limit start (.text input) allowTrailing).2 ⟨rule, cursor⟩
            (.node rule tag children span) := by
  have hcompiled := compiled_of_compile hg
  have hsound : g.parser.rules.Sound := hcompiled.parserRules ▸ hcompiled.rules
  have hrules : (g.parser.session (.text input)).rules = g.rules := hcompiled.parserRules
  have hclear : ∀ cursor, (g.parser.session (.text input)).Settled cursor →
      input.ClearAt g.rules cursor := by
    intro cursor hcursor
    rw [← hrules]
    exact hcursor.clearAt hsound rfl
  obtain ⟨htrace, hgives⟩ := @Parser.parse_settled g.parser limit start (.text input)
    allowTrailing hsound
  refine ⟨?_, ?_, ?_, ?_⟩
  · intro e he
    exact ⟨htrace e he, hclear _ (htrace e he)⟩
  · intro e position herror hposition
    obtain ⟨cursor, rfl, hcursor⟩ := hgives e position herror hposition
    exact ⟨cursor, rfl, hcursor, hclear cursor hcursor⟩
  · intro cursor hcursor limit active
    exact Session.anchors_of_settled rfl hcursor limit active
  · intro root hroot rule tag children span hx
    obtain ⟨cursor, hcomes⟩ := Parser.parse_recorded hsound hroot rule tag children span hx
    exact ⟨cursor, hcomes.start_eq rfl htrace, hcomes⟩

def Grammar.signedWords : Text := Text.ofString
  "row ::= (sign?)* word tail; sign ::= '+'; tail ::= ('.' | sign?)*; word :== [a-z]+; _ :== ' '*;"

def Grammar.wideRow : Text := Text.ofString "  ab  "

/-- The row starts behind the blanks in front of it. The tail is tried behind the blanks that follow
the word, where an iteration without a sign is the last one. -/
theorem Grammar.cursors_past_whitespace_signedWords :
    ∃ g root, compile signedWords (Text.ofString "_") = .ok g ∧
      (g.parser.parse 10 (Text.ofString "row") (.text wideRow) false).1 = .ok root ∧
      root.span = ⟨2, 6⟩ ∧
      .iterationTried 6 ∈ (g.parser.parse 10 (Text.ofString "row") (.text wideRow) false).2 ∧
      wideRow.ClearAt g.rules 6 ∧
      (g.parser.session (.text wideRow)).Anchors ((g.parser.session (.text wideRow)).rule 8
        [⟨Text.ofString "tail", 6⟩, ⟨Text.ofString "row", 2⟩]) 6 ∧
      ∀ rule tag children span, (Tree.node rule tag children span).Within root →
        ∃ cursor : Nat, span.start = cursor ∧
          (g.parser.session (.text wideRow)).ComesFrom
            (g.parser.parse 10 (Text.ofString "row") (.text wideRow) false).2 ⟨rule, cursor⟩
            (.node rule tag children span) := by
  have htest : (compile signedWords (Text.ofString "_")).toOption.any (fun g =>
      decide (.iterationTried 6 ∈
        (g.parser.parse 10 (Text.ofString "row") (.text wideRow) false).2) &&
      (g.parser.parse 10 (Text.ofString "row") (.text wideRow) false).1.toOption.any fun root =>
        decide (root.span = ⟨2, 6⟩)) = true := by
    decide +kernel
  obtain ⟨g, hg, htest⟩ := exists_compile htest
  obtain ⟨hevent, htest⟩ := Bool.and_eq_true_iff.mp htest
  obtain ⟨root, hroot, hspan⟩ := exists_of_toOption_any htest
  obtain ⟨htrace, -, hanchors, hnodes⟩ :=
    cursors_past_whitespace hg 10 (Text.ofString "row") wideRow false
  have hevent := of_decide_eq_true hevent
  obtain ⟨hsettled, hclear⟩ := htrace _ hevent
  exact ⟨g, root, hg, hroot, of_decide_eq_true hspan, hevent, hclear, hanchors 6 hsettled 8 _,
    hnodes root hroot⟩

end GrammarKit
