import GrammarKit.Proofs.Automaton.Locality

/-!
A parse is a matter of the rules that the start leads to, and of what these say. Spare tokens beside
them are asked for nowhere, so the parse goes through the same events with and without them. Main
statement: on every input two parsers give the same answer and the same trace, if the rules of one
are within those of the other.
-/
namespace GrammarKit

namespace Session

section Places

variable {s : Session} {call : Text → Nat → Attempt Outcome}

mutual

/-- Spans of rules play no part in a parse. -/
theorem singular_bare : ∀ x : Singular, singular s call x.bare = singular s call x
  | .group alternatives => by
    funext cursor
    simp only [Singular.bare, singular, alternation_bare alternatives]
  | .symbol name _ | .literal name _ _ | .charset name _ _ => by
    funext cursor
    simp only [Singular.bare, singular]

theorem alternation_bare : ∀ alternatives : List (Alternative (Item Singular)),
    alternation s call (Alternation.bare alternatives) = alternation s call alternatives
  | [] => by simp only [Alternation.bare]
  | a :: rest => by
    funext cursor
    simp only [Alternation.bare, alternation, alternative_bare a, alternation_bare rest]

theorem alternative_bare : ∀ a : Alternative (Item Singular),
    alternative s call (Alternative.bare a) = alternative s call a
  | ⟨_, _, items, _⟩ => by
    funext cursor
    simp only [Alternative.bare, alternative, body_bare items]

theorem body_bare : ∀ items : List (Item Singular),
    body s call (Body.bare items) = body s call items
  | [] => by simp only [Body.bare]
  | i :: rest => by
    funext cursor
    simp only [Body.bare, body, item_bare i, body_bare rest]

theorem item_bare : ∀ i : Item Singular, item s call (Item.bare i) = item s call i
  | ⟨inner, quantifier⟩ => by
    funext cursor
    simp only [Item.bare, item, singular_bare inner]

end

theorem choose_bare (alternatives : Alternation) (cursor : Nat) : ∀ index,
    choose s call index (Alternation.bare alternatives) cursor =
      choose s call index alternatives cursor := by
  induction alternatives with
  | nil =>
    intro index
    simp only [Alternation.bare]
  | cons a rest ih =>
    intro index
    simp only [Alternation.bare, choose, alternative_bare a, ih (index + 1)]

end Places

/-- Two sessions on one input in which the names of the first one mean the same. -/
structure Like (s s' : Session) : Prop where
  input : s'.input = s.input
  variants : s'.variants = s.variants
  production : ∀ name, s'.rules.isProduction name = s.rules.isProduction name
  rule : ∀ name r, s.rules.get? name = some r →
    ∃ r', s'.rules.get? name = some r' ∧ r'.content = r.content
  token? : ∀ name, s.rules.contains name = true → s.rules.isProduction name = false →
    ∀ cursor, s'.token? name cursor = s.token? name cursor
  skip : ∀ cursor, s'.skip cursor = s.skip cursor

namespace Like

variable {s s' : Session}

theorem length_eq (h : s.Like s') : s'.length = s.length := by
  rw [s'.length_eq, h.input, s.length_eq]

theorem takeToken_eq (h : s.Like s') {name : Text} (hknown : s.rules.contains name = true)
    (hproduction : s.rules.isProduction name = false) (cursor : Nat) :
    s'.takeToken name cursor = s.takeToken name cursor := by
  simp only [takeToken, h.token? name hknown hproduction, h.skip]

theorem settle_eq (h : s.Like s') (outcome : Outcome) : s'.settle outcome = s.settle outcome := by
  cases outcome with
  | none => rfl
  | some m => simp only [settle, h.skip]

theorem quantified_eq (h : s.Like s') (quantifier : Quantifier) (part : Nat → Attempt Outcome)
    (cursor : Nat) : s'.quantified quantifier part cursor = s.quantified quantifier part cursor := by
  simp only [quantified, h.length_eq]

section Parts

variable {call call' : Text → Nat → Attempt Outcome}

mutual

/-- A part does the same in both sessions, if the productions that it calls do. -/
theorem singular_eq (h : s.Like s')
    (hcall : ∀ name, s.rules.isProduction name = true → call' name = call name) :
    ∀ x : Singular, x.all s.rules.knows = true → singular s' call' x = singular s call x
  | .group alternatives, hknows => by
    simp only [Singular.all] at hknows
    funext cursor
    simp only [singular, alternation_eq h hcall alternatives hknows, h.settle_eq]
  | .symbol name span, hknows => by
    simp only [Singular.all, RuleSet.knows] at hknows
    funext cursor
    simp only [singular, h.production]
    by_cases hproduction : s.rules.isProduction name = true
    · simp only [if_pos hproduction, hcall name hproduction, h.settle_eq]
    · rw [if_neg hproduction, if_neg hproduction]
      exact h.takeToken_eq hknows (Bool.eq_false_iff.mpr hproduction) cursor
  | .literal .., hknows | .charset .., hknows => by
    simp [Singular.all, RuleSet.knows] at hknows

theorem alternation_eq (h : s.Like s')
    (hcall : ∀ name, s.rules.isProduction name = true → call' name = call name) :
    ∀ alternatives : List (Alternative (Item Singular)),
    Alternation.all s.rules.knows alternatives = true →
    alternation s' call' alternatives = alternation s call alternatives
  | [], _ => by
    funext cursor
    simp only [alternation]
  | a :: rest, hknows => by
    simp only [Alternation.all, Bool.and_eq_true] at hknows
    funext cursor
    simp only [alternation, alternative_eq h hcall a hknows.1, alternation_eq h hcall rest hknows.2]

theorem alternative_eq (h : s.Like s')
    (hcall : ∀ name, s.rules.isProduction name = true → call' name = call name) :
    ∀ a : Alternative (Item Singular), Alternative.all s.rules.knows a = true →
    alternative s' call' a = alternative s call a
  | ⟨_, _, items, _⟩, hknows => by
    simp only [Alternative.all] at hknows
    funext cursor
    simp only [alternative, body_eq h hcall items hknows]

theorem body_eq (h : s.Like s')
    (hcall : ∀ name, s.rules.isProduction name = true → call' name = call name) :
    ∀ items : List (Item Singular), Body.all s.rules.knows items = true →
    body s' call' items = body s call items
  | [], _ => by
    funext cursor
    simp only [body]
  | i :: rest, hknows => by
    simp only [Body.all, Bool.and_eq_true] at hknows
    funext cursor
    simp only [body, item_eq h hcall i hknows.1, body_eq h hcall rest hknows.2]

theorem item_eq (h : s.Like s')
    (hcall : ∀ name, s.rules.isProduction name = true → call' name = call name) :
    ∀ i : Item Singular, Item.all s.rules.knows i = true → item s' call' i = item s call i
  | ⟨inner, quantifier⟩, hknows => by
    simp only [Item.all] at hknows
    funext cursor
    simp only [item, singular_eq h hcall inner hknows, h.quantified_eq]

end

theorem choose_eq (h : s.Like s')
    (hcall : ∀ name, s.rules.isProduction name = true → call' name = call name)
    (alternatives : Alternation) (hknows : Alternation.all s.rules.knows alternatives = true)
    (cursor : Nat) : ∀ index,
    choose s' call' index alternatives cursor = choose s call index alternatives cursor := by
  induction alternatives with
  | nil => exact fun _ => rfl
  | cons a rest ih =>
    intro index
    simp only [Alternation.all, Bool.and_eq_true] at hknows
    simp only [choose, alternative_eq h hcall a hknows.1, ih hknows.2]

theorem expand_eq (h : s.Like s')
    (hcall : ∀ name, s.rules.isProduction name = true → call' name = call name)
    (active : List Frame) {r r' : Rule} (hsame : r'.content = r.content)
    (hknows : Alternation.all s.rules.knows r.alternatives = true) (cursor : Nat) :
    s'.expand call' active r' cursor = s.expand call active r cursor := by
  obtain ⟨hname, -, halternatives, -⟩ := Rule.content_eq_iff.mp hsame
  have hchoose : choose s' call' 0 r'.alternatives cursor =
      choose s call 0 r.alternatives cursor := by
    rw [← choose_bare, halternatives, choose_bare, h.choose_eq hcall r.alternatives hknows]
  simp only [expand, node, hname, hchoose, h.variants, h.input]

end Parts

/-- Productions do the same in both sessions. The induction is on the limit. -/
theorem rule_eq (h : s.Like s') (hs : s.rules.Sound) (limit : Nat) :
    ∀ (active : List Frame) (name : Text), s.rules.isProduction name = true →
      s'.rule limit active name = s.rule limit active name := by
  induction limit with
  | zero =>
    intro active name hproduction
    obtain ⟨r, hget, -⟩ := RuleSet.isProduction_iff.mp hproduction
    obtain ⟨r', hget', -⟩ := h.rule name r hget
    funext cursor
    simp only [Session.rule, enter, hget, hget']
  | succ limit ih =>
    intro active name hproduction
    obtain ⟨r, hget, hkind⟩ := RuleSet.isProduction_iff.mp hproduction
    obtain ⟨r', hget', hsame⟩ := h.rule name r hget
    have hknows := hs.knows (RuleSet.mem_of_get? hget) hkind
    funext cursor
    simp only [Session.rule, enter, hget, hget',
      h.expand_eq (ih (⟨name, cursor⟩ :: active)) active hsame hknows]

end Like

end Session

namespace Parser

variable {spare : List Text} {p p' : Parser}

/-- The tables of automata say the same of the rules of characters. -/
theorem get_automata (h : p.rules.Within spare p'.rules) (hp : p.rules.Sound) {r : Rule}
    (hr : r ∈ p.rules.rules) (hlexical : r.isLexical = true) :
    p'.automata.get r.name = p.automata.get r.name := by
  rw [Automaton.Table.get_eq, Automaton.Table.get_eq, Automaton.ofRule_within h hp hr hlexical]

theorem session_like (h : p.rules.Within spare p'.rules) (hp : p.rules.Sound)
    (hvariants : p'.variants = p.variants) (input : Input) :
    (p.session input).Like (p'.session input) where
  input := rfl
  variants := hvariants
  production := h.isProduction_eq
  rule := fun _ _ => h.exists_get?
  token? := by
    intro name hknown hproduction cursor
    obtain ⟨r, hget⟩ := Option.isSome_iff_exists.mp hknown
    have hlexical : r.isLexical = true := by
      refine Rule.isLexical_iff.mpr fun hkind => ?_
      rw [RuleSet.isProduction_iff.mpr ⟨r, hget, hkind⟩] at hproduction
      cases hproduction
    have hautomata := get_automata h hp (RuleSet.mem_of_get? hget) hlexical
    rw [RuleSet.get?_name hget] at hautomata
    cases input with
    | tokens ts => rfl
    | text t => simp only [Session.token?, session, hautomata]
  skip := by
    intro cursor
    cases input with
    | tokens ts => rfl
    | text t =>
      have hname := h.whitespace_name
      cases hblank : p.rules.whitespace with
      | none =>
        rw [hblank, Option.map_none, Option.map_eq_none_iff] at hname
        simp only [Session.skip, session, hblank, hname]
      | some r =>
        rw [hblank, Option.map_some, Option.map_eq_some_iff] at hname
        obtain ⟨r', hblank', hname⟩ := hname
        obtain ⟨hr, hkind⟩ := RuleSet.whitespace_eq_some hblank
        have hlexical : r.isLexical = true := by
          rw [Rule.isLexical, hkind]
          rfl
        simp only [Session.skip, session, hblank, hblank', hname, get_automata h hp hr hlexical]

/-- Parsers give the same answer in the same way, if the rules of one are within those of the
other. -/
theorem parse_within (h : p.rules.Within spare p'.rules) (hp : p.rules.Sound)
    (hvariants : p'.variants = p.variants) (limit : Nat) (start : Text) (input : Input)
    (allowTrailing : Bool) :
    p'.parse limit start input allowTrailing = p.parse limit start input allowTrailing := by
  have hlike := session_like h hp hvariants input
  by_cases hproduction : p.rules.isProduction start = true
  · have hattempt : p'.attempt limit start input = p.attempt limit start input := by
      simp only [attempt, hlike.skip, hlike.rule_eq hp limit [] start hproduction]
    simp only [parse, h.isProduction_eq, hattempt]
  · simp only [parse, h.isProduction_eq, if_neg hproduction]

end Parser

end GrammarKit
