import GrammarKit.Proofs.Parse.Composition
import GrammarKit.Proofs.Tokenizer.Course
import Mathlib.Logic.Relation

/-!
Where the units of a parsed text go. The cursor of a parse moves by tokens and by white space only,
and what an abandoned alternative took is not in the tree. Main statement: the tokens of a tree and
the gaps around them cover the text exactly once, the tokens are longest words of their rules, and
the gaps are white space.
-/
namespace GrammarKit

def Span.Contains (span : Span) (offset : Int) : Prop := span.start ≤ offset ∧ offset < span.stop

instance (span : Span) (offset : Int) : Decidable (span.Contains offset) := inferInstanceAs
  (Decidable (span.start ≤ offset ∧ offset < span.stop))

theorem Span.contains_iff {start stop offset : Int} :
    Span.Contains ⟨start, stop⟩ offset ↔ start ≤ offset ∧ offset < stop := Iff.rfl

/-- What tokens leave free between two offsets: before the first of them, between neighbours and
after the last. -/
def Token.gaps (start : Int) (tokens : List Token) (stop : Int) : List Span :=
  match tokens with
  | [] => [⟨start, stop⟩]
  | token :: rest => ⟨start, token.span.start⟩ :: gaps token.span.stop rest stop

def Token.cover (start : Int) (tokens : List Token) (stop : Int) : List Span :=
  tokens.map Token.span ++ gaps start tokens stop

theorem Tree.tokensOf_append (first rest : List Tree) :
    tokensOf (first ++ rest) = tokensOf first ++ tokensOf rest := by
  induction first with
  | nil => rfl
  | cons t first ih =>
    rw [List.cons_append, tokensOf, tokensOf, ih, List.append_assoc]

/-- White space: words of the whitespace rule in a row, each of them the longest one and none of
them empty. -/
def Text.Blanks (rs : RuleSet) (t : Text) : Nat → Nat → Prop :=
  Relation.ReflTransGen fun start stop =>
    start < stop ∧ ∃ r, rs.whitespace = some r ∧ t.LongestWord rs r.name start stop

namespace Text.Blanks

variable {rs : RuleSet} {t : Text} {start stop : Nat}

theorem le (h : t.Blanks rs start stop) : start ≤ stop := by
  induction h with
  | refl => exact Nat.le_refl _
  | tail _ hword ih => omega

theorem eq_of_none (h : t.Blanks rs start stop) (hnone : rs.whitespace = none) : start = stop := by
  induction h with
  | refl => rfl
  | tail _ hword _ =>
    obtain ⟨-, r, hr, -⟩ := hword
    rw [hnone] at hr
    cases hr

end Text.Blanks

/-- Tokens from one offset of a text to another, each of them the longest word of its rule, with
white space before, between and after them. -/
inductive Tiled (rs : RuleSet) (t : Text) : Nat → List Token → Nat → Prop where
  | blank {start stop : Nat} (h : t.Blanks rs start stop) : Tiled rs t start [] stop
  | token {start low high stop : Nat} {name : Text} {rest : List Token}
      (hgap : t.Blanks rs start low) (hword : t.LongestWord rs name low high)
      (hrest : Tiled rs t high rest stop) :
      Tiled rs t start (⟨name, t.slice low high, ⟨low, high⟩⟩ :: rest) stop

namespace Tiled

variable {rs : RuleSet} {t : Text} {start middle stop : Nat} {tokens : List Token}

theorem after_blanks (hblanks : t.Blanks rs start middle) (h : Tiled rs t middle tokens stop) :
    Tiled rs t start tokens stop := by
  cases h with
  | blank hrest => exact .blank (hblanks.trans hrest)
  | token hgap hword hrest => exact .token (hblanks.trans hgap) hword hrest

theorem append {others : List Token} (h : Tiled rs t start tokens middle)
    (h' : Tiled rs t middle others stop) : Tiled rs t start (tokens ++ others) stop := by
  induction h with
  | blank hblanks => exact after_blanks hblanks h'
  | token hgap hword _ ih => exact .token hgap hword (ih h')

theorem le (h : Tiled rs t start tokens stop) : start ≤ stop := by
  induction h with
  | blank hblanks => exact hblanks.le
  | token hgap hword _ ih =>
    have hbefore := hgap.le
    have htoken := hword.le
    omega

/-- Each offset lies in one token or in one gap. -/
theorem countP_cover (h : Tiled rs t start tokens stop) (offset : Int) :
    (Token.cover start tokens stop).countP (fun span => span.Contains offset) =
      if start ≤ offset ∧ offset < stop then 1 else 0 := by
  induction h with
  | blank => simp [Token.cover, Token.gaps, List.countP_cons, Span.contains_iff]
  | @token start low high stop name rest hgap hword hrest ih =>
    have hbefore := hgap.le
    have htoken := hword.le
    have hafter := hrest.le
    simp only [Token.cover, Token.gaps, List.map_cons, List.countP_append, List.countP_cons,
      decide_eq_true_eq, Span.contains_iff] at ih ⊢
    split_ifs at ih ⊢ <;> omega

theorem longestWord (h : Tiled rs t start tokens stop) :
    ∀ token ∈ tokens, ∃ low high : Nat, token.span = ⟨low, high⟩ ∧
      token.text = t.slice low high ∧ t.LongestWord rs token.name low high := by
  induction h with
  | blank => simp
  | @token _ low high _ _ _ _ hword _ ih =>
    intro token htoken
    rcases List.mem_cons.mp htoken with rfl | htoken
    · exact ⟨low, high, rfl, rfl, hword⟩
    · exact ih token htoken

theorem blanks (h : Tiled rs t start tokens stop) :
    ∀ gap ∈ Token.gaps start tokens stop, ∃ low high : Nat, gap = ⟨low, high⟩ ∧
      t.Blanks rs low high := by
  induction h with
  | blank hblanks =>
    intro gap hgap
    rw [Token.gaps, List.mem_singleton] at hgap
    exact ⟨_, _, hgap, hblanks⟩
  | token hblanks _ _ ih =>
    intro gap hgap
    rw [Token.gaps, List.mem_cons] at hgap
    rcases hgap with rfl | hgap
    · exact ⟨_, _, rfl, hblanks⟩
    · exact ih gap hgap

end Tiled

namespace Session

variable {s : Session} {t : Text}

theorem Skips.blanks (hinput : s.input = .text t) {cursor stop : Nat} (h : s.Skips cursor stop) :
    t.Blanks s.rules cursor stop := by
  induction h with
  | done => exact .refl
  | more hblank hlt _ ih =>
    obtain ⟨r, hr, hword⟩ := (blank_text hinput).mp hblank
    exact .head ⟨hlt, r, hr, hword⟩ ih

/-- Trees are put together from tokens that tile the text between the cursors. -/
theorem tiled_composes (hinput : s.input = .text t) :
    s.Composes fun cursor stop trees => Tiled s.rules t cursor (Tree.tokensOf trees) stop where
  nothing cursor := .blank .refl
  skip hskips := .blank (hskips.blanks hinput)
  token := by
    intro name cursor token stop htakes
    obtain ⟨hword, rfl⟩ := (takes_text hinput).mp htakes
    rw [← Text.slice_natCast]
    exact .token .refl hword (.blank .refl)
  append := by
    intro cursor middle stop first rest hfirst hrest
    rw [Tree.tokensOf_append]
    exact hfirst.append hrest
  node := by
    intro name r before a after cursor m span _ _ _ _ _ hchildren
    rw [Tree.tokensOf, Tree.tokens, Tree.tokensOf, List.append_nil]
    exact hchildren

end Session

/-- A text that is parsed to its end is covered exactly once by the tokens of the tree and the gaps
around them. -/
theorem Grammar.parse_covers_text {source whitespaceName : Text} {g : Grammar}
    (hg : compile source whitespaceName = .ok g) {limit : Nat} {start input : Text} {root : Tree}
    (hroot : (g.parser.parse limit start (.text input) false).1 = .ok root) :
    (∀ offset : Int,
      (Token.cover 0 root.tokens input.length).countP (fun span => span.Contains offset) =
        if 0 ≤ offset ∧ offset < input.length then 1 else 0) ∧
    (∀ token ∈ root.tokens, ∃ low high : Nat, token.span = ⟨low, high⟩ ∧
      token.text = input.slice low high ∧ input.LongestWord g.rules token.name low high) ∧
    (∀ gap ∈ Token.gaps 0 root.tokens input.length, ∃ low high : Nat, gap = ⟨low, high⟩ ∧
      input.Blanks g.rules low high) ∧
    (g.rules.whitespace = none →
      ∀ gap ∈ Token.gaps 0 root.tokens input.length, gap.start = gap.stop) := by
  have hcompiled := compiled_of_compile hg
  obtain ⟨stop, htiled, hstop⟩ :=
    Parser.composed_of_parse hcompiled.tagged (Session.tiled_composes rfl) hroot
  obtain rfl := hstop rfl
  have hrules : (g.parser.session (.text input)).rules = g.rules := hcompiled.parserRules
  rw [Tree.tokensOf, Tree.tokensOf, List.append_nil, hrules] at htiled
  have hblanks := htiled.blanks
  refine ⟨htiled.countP_cover, htiled.longestWord, hblanks, ?_⟩
  intro hnone gap hgap
  obtain ⟨low, high, rfl, hspace⟩ := hblanks gap hgap
  exact congrArg Int.ofNat (hspace.eq_of_none hnone)

def Grammar.calls : Text :=
  Text.ofString "call ::= name '(' name ')' | name '(' ')'; name :== [a-z]+; _ :== ' ';"

def Grammar.emptyCall : Text := Text.ofString "  f ( )"

/-- The alternative with an argument is given up after two tokens. They are not in the tree, and the
tree covers the text. -/
theorem Grammar.parse_covers_text_calls :
    ∃ g root, compile calls (Text.ofString "_") = .ok g ∧
      (g.parser.parse 10 (Text.ofString "call") (.text emptyCall) false).1 = .ok root ∧
      root.tokens.map Token.span = [⟨2, 3⟩, ⟨4, 5⟩, ⟨6, 7⟩] ∧
      (∀ offset : Int,
        (Token.cover 0 root.tokens emptyCall.length).countP (fun span => span.Contains offset) =
          if 0 ≤ offset ∧ offset < emptyCall.length then 1 else 0) ∧
      ∀ gap ∈ Token.gaps 0 root.tokens emptyCall.length, ∃ low high : Nat, gap = ⟨low, high⟩ ∧
        emptyCall.Blanks g.rules low high := by
  have htest : (compile calls (Text.ofString "_")).toOption.any (fun g =>
      (g.parser.parse 10 (Text.ofString "call") (.text emptyCall) false).1.toOption.any fun root =>
        decide (root.tokens.map Token.span = [⟨2, 3⟩, ⟨4, 5⟩, ⟨6, 7⟩])) = true := by
    decide +kernel
  obtain ⟨g, hg, htest⟩ := exists_compile htest
  obtain ⟨root, hroot, htest⟩ := exists_of_toOption_any htest
  obtain ⟨hcover, -, hgaps, -⟩ := parse_covers_text hg hroot
  exact ⟨g, root, hg, hroot, of_decide_eq_true htest, hcover, hgaps⟩

end GrammarKit
