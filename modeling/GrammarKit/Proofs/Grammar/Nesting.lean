import GrammarKit.Proofs.Parse.Lockstep
import GrammarKit.Proofs.Parse.Unlimited

/-!
How deep calls are nested. A stack holds each pair of a production and a cursor once, and no cursor
is beyond the end of the input, so there are only so many calls that can be active together. Main
statement: with room for that many calls the parser does what it would do without any limit, it
never gets too deep, and every parse that does not get too deep ends in the same way.
-/
namespace GrammarKit

/-- What productions refer to is a production, or it has another name of the grammar. -/
theorem RuleSet.Sound.covered {rs : RuleSet} (h : rs.Sound) :
    rs.Covered (rs.names.filter fun name => !rs.isProduction name) := by
  intro r hr hkind
  have himp : Singular.Implies rs.knows
      (rs.covers (rs.names.filter fun name => !rs.isProduction name)) (fun _ => True) := by
    intro x hx _
    cases x with
    | symbol name span =>
      obtain ⟨target, hget⟩ := Option.isSome_iff_exists.mp hx
      have hname : name ∈ rs.names :=
        List.mem_map.mpr ⟨target, RuleSet.mem_of_get? hget, RuleSet.get?_name hget⟩
      by_cases hproduction : rs.isProduction name = true
      · simp [RuleSet.covers, hproduction]
      · simp [RuleSet.covers, hname, hproduction]
    | group alternatives => simp [RuleSet.knows] at hx
    | literal source matchers span => simp [RuleSet.knows] at hx
    | charset source matcher span => simp [RuleSet.knows] at hx
  exact Alternation.all_imp himp r.alternatives (h.knows hr hkind) fun _ _ => trivial

namespace Session

open Attempt

variable {s : Session}

/-- White space is passed over at once. -/
theorem Skips.fixed {cursor stop : Nat} (h : s.Skips cursor stop) : s.Skips stop stop := by
  induction h with
  | done hdone => exact .done hdone
  | more _ _ _ ih => exact ih

theorem skip_fixed (hs : s.rules.Sound) {cursor stop : Nat} (h : s.Skips cursor stop) :
    s.skip stop = .ok stop := by
  obtain ⟨stop', hskip, hskips⟩ := skip_cases hs stop
  rw [hskip, h.fixed.unique hskips]

end Session

namespace Parser

variable {p : Parser} {start : Text} {input : Input} {allowTrailing : Bool}

/-- Parses an input with room for all calls that there are: the start rule is called by
`Session.unlimited`. -/
def parseUnlimited (p : Parser) (start : Text) (input : Input) (allowTrailing : Bool) :
    Except Failure Tree × Trace :=
  p.parse (p.session input).capacity start input allowTrailing

/-- An input is in lockstep with itself at the cursors after white space. -/
theorem lockstep_self (hp : p.rules.Sound) (input : Input) :
    Lockstep p (p.rules.names.filter fun name => !p.rules.isProduction name) input input
      fun c i => c = i ∧ (p.session input).skip c = .ok c where
  lt_iff := by
    rintro c i d j ⟨rfl, -⟩ ⟨rfl, -⟩
    exact Iff.rfl
  inside_iff := by
    rintro c i ⟨rfl, -⟩
    exact Iff.rfl
  position_eq := by
    rintro c i ⟨rfl, -⟩
    rfl
  skip := by
    rintro c i ⟨rfl, hskip⟩
    exact ⟨hskip, hskip⟩
  token := by
    rintro c i ⟨rfl, -⟩ name hname
    obtain ⟨hmem, hlexical⟩ := List.mem_filter.mp hname
    obtain ⟨r, hr, rfl⟩ := List.mem_map.mp hmem
    have hknown : (p.session input).rules.contains r.name = true :=
      Option.isSome_iff_exists.mpr ⟨r, RuleSet.get?_of_mem hr⟩
    have hlexical : p.rules.isProduction r.name = false := by simpa using hlexical
    rcases Session.token?_cases hp hknown hlexical c with
      ⟨token, middle, htoken, -⟩ | ⟨htoken, -⟩
    · obtain ⟨stop, hskip, hskips⟩ := (p.session input).skip_cases hp middle
      exact Or.inr ⟨token, middle, middle, stop, stop, htoken, htoken, hskip, hskip, rfl,
        Session.skip_fixed hp hskips⟩
    · exact Or.inl ⟨htoken, htoken⟩
  start := by
    obtain ⟨cursor, hskip, hskips⟩ := (p.session input).skip_cases hp 0
    exact ⟨cursor, cursor, hskip, hskip, rfl, Session.skip_fixed hp hskips⟩

/-- All that a parse puts on record stands inside of the input, and a parse that gets too deep has
piled up more calls than its limit allows. -/
theorem parse_orderly (hp : p.rules.Sound) (hstart : p.rules.isProduction start = true)
    (limit : Nat) :
    (∀ e ∈ (p.parse limit start input allowTrailing).2,
      (p.session input).Orderly (· ≤ input.length) e) ∧
    ∀ position rule, (p.parse limit start input allowTrailing).1 =
        .error (.parse (.tooDeep position rule)) → limit < (p.session input).capacity := by
  have hminds := Session.minds_trace hp (p.session input).handsOn_le
  have hfirst : ∀ cursor, (p.session input).Skips 0 cursor →
      cursor ≤ (p.session input).input.length :=
    fun cursor hskips => (p.session input).handsOn_le.skip (Nat.zero_le _) hskips
  obtain ⟨⟨progress, hinv, htrace⟩, hdeep⟩ :=
    parse_keeps hminds (by simp [Progress.initial]) hfirst hstart
  constructor
  · rw [htrace]
    exact hinv
  · intro position rule herror
    obtain ⟨frames, hstack, hlength⟩ := hdeep position rule herror
    have hheight := hstack.length_le
    omega

end Parser

/-- A parse from a production ends, with calls nested no deeper than there are productions and
cursors. It is the parse without a limit unless it gets too deep, and with room for all calls it
does not get too deep. -/
theorem Grammar.parse_nesting_bounded {source whitespaceName : Text} {g : Grammar}
    (hg : compile source whitespaceName = .ok g) {start : Text}
    (hstart : g.rules.isProduction start = true) (input : Input) (allowTrailing : Bool) :
    (g.parser.session input).Unlimited (g.parser.session input).unlimited ∧
    (∀ call, (g.parser.session input).Unlimited call → ∀ active,
      (g.parser.session input).Stack (· ≤ input.length) active →
        (g.parser.session input).SameCalls ((g.parser.session input).unlimited active)
          (call active)) ∧
    (∀ position rule, (g.parser.parseUnlimited start input allowTrailing).1 ≠
      .error (.parse (.tooDeep position rule))) ∧
    (∀ limit, (∀ position rule, (g.parser.parse limit start input allowTrailing).1 ≠
        .error (.parse (.tooDeep position rule))) →
      (g.parser.parse limit start input allowTrailing).1 =
        (g.parser.parseUnlimited start input allowTrailing).1) ∧
    (∀ limit, g.rules.productions.length * (input.length + 1) ≤ limit → ∀ position rule,
      (g.parser.parse limit start input allowTrailing).1 ≠
        .error (.parse (.tooDeep position rule))) ∧
    ∀ limit, ∀ e ∈ (g.parser.parse limit start input allowTrailing).2,
      (g.parser.session input).Orderly (· ≤ input.length) e ∧
      ∀ frame active, e = .entered frame active →
        (frame :: active).length ≤ g.rules.productions.length * (input.length + 1) := by
  have hcompiled := compiled_of_compile hg
  have htagged := hcompiled.tagged
  have hsound := htagged.toSound
  have hproduction : g.parser.rules.isProduction start = true := hcompiled.parserRules ▸ hstart
  have hcapacity : (g.parser.session input).capacity =
      g.rules.productions.length * (input.length + 1) := by
    rw [← hcompiled.parserRules]
    rfl
  have horderly := fun limit =>
    @Parser.parse_orderly g.parser start input allowTrailing hsound hproduction limit
  have hunlimited : ∀ position rule, (g.parser.parseUnlimited start input allowTrailing).1 ≠
      .error (.parse (.tooDeep position rule)) := by
    intro position rule herror
    exact absurd ((horderly _).2 position rule herror) (Nat.lt_irrefl _)
  refine ⟨Session.unlimited_unlimited htagged, ?_, hunlimited, ?_, ?_, ?_⟩
  · intro call hcall active hactive
    exact hcall.eq_unlimited htagged hactive
  · intro limit hlimit
    exact (Parser.lockstep_self hsound input).parse_eq_of_within hsound.covered hlimit hunlimited
  · intro limit hle position rule herror
    have hless := (horderly limit).2 position rule herror
    omega
  · intro limit e he
    have hevent := (horderly limit).1 e he
    refine ⟨hevent, ?_⟩
    rintro frame active rfl
    rw [← hcapacity]
    exact Session.Stack.length_le hevent

def Grammar.brackets : Text := Text.ofString "nest ::= '(' nest ')' | '(' ')';"

def Grammar.threeDeep : Text := Text.ofString "((()))"

/-- Three pairs of brackets are parsed with four nested calls, as they are without a limit, and not
with three. -/
theorem Grammar.parse_nesting_bounded_brackets :
    ∃ g root, compile brackets (Text.ofString "_") = .ok g ∧
      g.rules.isProduction (Text.ofString "nest") = true ∧
      (g.parser.parse 4 (Text.ofString "nest") (.text threeDeep) false).1 = .ok root ∧
      (g.parser.parse 3 (Text.ofString "nest") (.text threeDeep) false).1.isOk = false ∧
      (g.parser.parse 4 (Text.ofString "nest") (.text threeDeep) false).1 =
        (g.parser.parseUnlimited (Text.ofString "nest") (.text threeDeep) false).1 ∧
      (g.parser.session (.text threeDeep)).Unlimited
        (g.parser.session (.text threeDeep)).unlimited ∧
      ∀ e ∈ (g.parser.parse 4 (Text.ofString "nest") (.text threeDeep) false).2,
        (g.parser.session (.text threeDeep)).Orderly (· ≤ threeDeep.length) e := by
  have htest : (compile brackets (Text.ofString "_")).toOption.any (fun g =>
      g.rules.isProduction (Text.ofString "nest") &&
      !(g.parser.parse 3 (Text.ofString "nest") (.text threeDeep) false).1.isOk &&
      (g.parser.parse 4 (Text.ofString "nest") (.text threeDeep) false).1.toOption.any
        fun _ => true) = true := by
    decide +kernel
  obtain ⟨g, hg, htest⟩ := exists_compile htest
  simp only [Bool.and_eq_true, Bool.not_eq_true'] at htest
  obtain ⟨⟨hstart, hdeep⟩, hok⟩ := htest
  obtain ⟨root, hroot, -⟩ := exists_of_toOption_any hok
  obtain ⟨hunlimited, -, -, hsame, -, horderly⟩ :=
    parse_nesting_bounded hg hstart (.text threeDeep) false
  refine ⟨g, root, hg, hstart, hroot, hdeep, hsame 4 ?_, hunlimited, ?_⟩
  · rw [hroot]
    nofun
  · exact fun e he => (horderly 4 e he).1

end GrammarKit
