import GrammarKit.Proofs.Parse.Composition
import GrammarKit.Proofs.Parse.Expression
import GrammarKit.Proofs.Rule.Variants
import GrammarKit.Proofs.Tokenizer.Course

/-!
What parse trees look like. Main statement: in the tree of a parse each node was made by the one
alternative that its tag names, the names of its children are a word of this alternative, its
children stand in order inside of its span, and each token is the stretch of the text at its span.
-/
namespace GrammarKit

namespace Tree

inductive Within (t : Tree) : Tree → Prop where
  | refl : Within t t
  | child {rule tag : Text} {children : List Tree} {span : Span} {c : Tree} (hc : c ∈ children)
      (h : Within t c) : Within t (.node rule tag children span)

structure Laid (low high : Int) (trees : List Tree) : Prop where
  le : low ≤ high
  inside : ∀ t ∈ trees, low ≤ t.span.start ∧ t.span.start ≤ t.span.stop ∧ t.span.stop ≤ high
  ordered : trees.Pairwise fun a b => a.span.stop ≤ b.span.start

namespace Laid

variable {low middle high : Int} {trees : List Tree}

theorem nil (h : low ≤ high) : Laid low high [] := ⟨h, by simp, .nil⟩

theorem singleton {t : Tree} (hlow : low ≤ t.span.start) (h : t.span.start ≤ t.span.stop)
    (hhigh : t.span.stop ≤ high) : Laid low high [t] := by
  refine ⟨by omega, ?_, List.pairwise_singleton _ _⟩
  intro t' ht'
  rw [List.mem_singleton.mp ht']
  exact ⟨hlow, h, hhigh⟩

theorem append {others : List Tree} (h : Laid low middle trees) (h' : Laid middle high others) :
    Laid low high (trees ++ others) := by
  have hle := h.le
  have hle' := h'.le
  refine ⟨by omega, ?_, ?_⟩
  · intro t ht
    rcases List.mem_append.mp ht with ht | ht
    · have hinside := h.inside t ht
      omega
    · have hinside := h'.inside t ht
      omega
  · refine List.pairwise_append.mpr ⟨h.ordered, h'.ordered, ?_⟩
    intro a ha b hb
    have hfirst := h.inside a ha
    have hsecond := h'.inside b hb
    omega

/-- The first of several trees starts before all others, and the last one ends after them. -/
theorem first_last {first last : Tree} {rest : List Tree} (h : Laid low high (first :: rest))
    (hlast : (first :: rest).getLast? = some last) : ∀ t ∈ first :: rest,
      first.span.start ≤ t.span.start ∧ t.span.stop ≤ last.span.stop := by
  intro t ht
  have hinside := h.inside t ht
  have hfirst := h.inside first List.mem_cons_self
  constructor
  · rcases List.mem_cons.mp ht with rfl | ht
    · exact Int.le_refl _
    · have hordered := (List.pairwise_cons.mp h.ordered).1 t ht
      omega
  · obtain ⟨before, hsplit⟩ := List.getLast?_eq_some_iff.mp hlast
    have hordered := h.ordered
    have hend := h.inside last (List.mem_of_getLast? hlast)
    rw [hsplit] at ht hordered
    rcases List.mem_append.mp ht with ht | ht
    · have hbefore := (List.pairwise_append.mp hordered).2.2 t ht last (List.mem_singleton_self _)
      omega
    · rw [List.mem_singleton.mp ht]

/-- The span of trees lies between the offsets, and no tree reaches out of it. -/
theorem spanOf (h : Laid low high trees) :
    low ≤ (Tree.spanOf trees low).start ∧
      (Tree.spanOf trees low).start ≤ (Tree.spanOf trees low).stop ∧
      (Tree.spanOf trees low).stop ≤ high ∧
      ∀ t ∈ trees, (Tree.spanOf trees low).start ≤ t.span.start ∧
        t.span.stop ≤ (Tree.spanOf trees low).stop := by
  cases trees with
  | nil => exact ⟨Int.le_refl _, Int.le_refl _, h.le, by simp⟩
  | cons first rest =>
    obtain ⟨last, hlast⟩ : ∃ last, (first :: rest).getLast? = some last :=
      ⟨_, List.getLast?_eq_some_getLast (by simp)⟩
    have hspan : Tree.spanOf (first :: rest) low = ⟨first.span.start, last.span.stop⟩ := by
      rw [Tree.spanOf, hlast]
      rfl
    have hfirst := h.inside first List.mem_cons_self
    have hend := h.inside last (List.mem_of_getLast? hlast)
    have hall := h.first_last hlast
    have hreach := hall first List.mem_cons_self
    rw [hspan]
    refine ⟨hfirst.1, ?_, hend.2.2, hall⟩
    show first.span.start ≤ last.span.stop
    omega

end Laid

end Tree

namespace Session

/-- An input that stands for a text: its tokens stand in the text, between the positions of the
cursors before and after them, and no position goes back. -/
structure StandsFor (s : Session) (t : Text) : Prop where
  token : ∀ {name cursor token stop}, cursor ≤ s.input.length → s.Takes name cursor token stop →
    token.StandsIn t ∧ s.input.position cursor ≤ token.span.start ∧
      token.span.stop ≤ s.input.position stop
  skip : ∀ {cursor stop}, s.Skips cursor stop → s.input.position cursor ≤ s.input.position stop

variable {s : Session} {t : Text}

theorem standsFor_text (hinput : s.input = .text t) : s.StandsFor t where
  token := by
    intro name cursor token stop hcursor htakes
    have hbounds := htakes.bounds
    obtain ⟨hword, rfl⟩ := (takes_text hinput).mp htakes
    rw [hinput] at hcursor hbounds ⊢
    simp only [Input.length] at hcursor hbounds
    refine ⟨Token.standsIn_take hbounds.1 (by omega), ?_, ?_⟩
    · exact Int.le_refl _
    · exact Int.le_refl _
  skip := by
    intro cursor stop hskips
    have hbounds := hskips.bounds
    rw [hinput]
    exact Int.ofNat_le.mpr hbounds.1

/-- A token ends before the position of the cursor after it. -/
theorem stop_le_position {tokens : List Token} (hordered : Tokenizer.Ordered t 0 tokens) {i : Nat}
    {token : Token} (hget : tokens[i]? = some token) :
    token.span.stop ≤ (Input.tokens tokens.toArray).position (i + 1) := by
  obtain ⟨hlt, rfl⟩ := List.getElem?_eq_some_iff.mp hget
  simp only [Input.position, List.getElem?_toArray, List.back?_toArray]
  by_cases hnext : i + 1 < tokens.length
  · rw [List.getElem?_eq_getElem hnext]
    exact List.pairwise_iff_getElem.mp hordered.pairwise i (i + 1) hlt hnext (by omega)
  · have hlast : tokens.length - 1 = i := by omega
    rw [List.getElem?_eq_none (by omega), List.getLast?_eq_getElem?, hlast, hget]
    exact Int.le_refl _

theorem standsFor_tokens {tokens : List Token} (hordered : Tokenizer.Ordered t 0 tokens)
    (hinput : s.input = .tokens tokens.toArray) : s.StandsFor t where
  token := by
    intro name cursor token stop _ htakes
    obtain ⟨hget, -, rfl⟩ := (takes_tokens hinput).mp htakes
    rw [List.getElem?_toArray] at hget
    rw [hinput]
    refine ⟨hordered.standsIn token (List.mem_of_getElem? hget), ?_, stop_le_position hordered hget⟩
    simp only [Input.position, List.getElem?_toArray, hget]
    exact Int.le_refl _
  skip := by
    intro cursor stop hskips
    cases hskips with
    | done => exact Int.le_refl _
    | more hblank => exact absurd hblank (not_blank_tokens hinput)

end Session

namespace Grammar

/-- What stands in a parse tree: tokens from a text, and nodes that a production has made. -/
inductive Made (g : Grammar) (t : Text) : Tree → Prop where
  | token {token : Token} (h : token.StandsIn t) : Made g t (.token token)
  | node {rule tag : Text} {children : List Tree} {span : Span} {r : Rule} {i : Nat}
      {a : Alternative (Item Singular)} (hget : g.rules.get? rule = some r)
      (hkind : r.kind = .production) (ha : r.alternatives[i]? = some a)
      (htag : a.tag rule i = tag)
      (honly : ∀ (j : Nat) (b : Alternative (Item Singular)), r.alternatives[j]? = some b →
        g.variants.tag rule j = b.tag rule j ∧ (b.tag rule j = tag → j = i))
      (hword : children.map Tree.name ∈ (Body.expression a.body).matches')
      (hordered : children.Pairwise fun a b => a.span.stop ≤ b.span.start)
      (hinside : ∀ c ∈ children, span.start ≤ c.span.start ∧ c.span.start ≤ c.span.stop ∧
        c.span.stop ≤ span.stop) :
      Made g t (.node rule tag children span)

/-- The inputs that a text comes to: itself, and its tokens. -/
inductive Presents (g : Grammar) (t : Text) : Input → Prop where
  | text : Presents g t (.text t)
  | tokens {tokens : List Token} (h : g.tokenizer.tokenize t = .ok tokens) :
      Presents g t (.tokens tokens.toArray)

variable {g : Grammar} {t : Text} {input : Input}

theorem Presents.standsFor (h : g.Presents t input) : (g.parser.session input).StandsFor t := by
  cases h with
  | text => exact Session.standsFor_text rfl
  | tokens htokens =>
    obtain ⟨hcourse, rfl⟩ := Tokenizer.course_of_tokenize htokens
    exact Session.standsFor_tokens hcourse.ordered rfl

/-- The node of an alternative that has matched is as it should be. -/
theorem Compiled.made_node (hg : g.Compiled) {s : Session} (hrules : s.rules = g.rules)
    {name : Text} {r : Rule} {before after : Alternation} {a : Alternative (Item Singular)}
    {cursor : Nat} {m : Match} {span : Span} {high : Int}
    (hproduction : s.rules.isProduction name = true) (hget : s.rules.get? name = some r)
    (hsplit : r.alternatives = before ++ a :: after)
    (hbody : s.Derives (.body a.body) cursor (some m))
    (hspan : Tree.SpannedBy (s.input.position cursor) m.children span)
    (hlaid : Tree.Laid (s.input.position cursor) high m.children) :
    g.Made t (.node name (a.tag name before.length) m.children span) := by
  rw [hrules] at hproduction hget
  obtain ⟨r', hget', hkind⟩ := RuleSet.isProduction_iff.mp hproduction
  rw [hget] at hget'
  cases hget'
  obtain rfl : r.name = name := RuleSet.get?_name hget
  have hmem : r ∈ g.rules.productions :=
    List.mem_filter.mpr ⟨RuleSet.mem_of_get? hget, by simpa using hkind⟩
  have ha : r.alternatives[before.length]? = some a := by
    rw [hsplit, List.getElem?_append_right (Nat.le_refl _), Nat.sub_self]
    rfl
  obtain ⟨hbody⟩ := hbody
  obtain rfl := Tree.spannedBy_iff.mp hspan
  obtain ⟨-, -, -, hreach⟩ := hlaid.spanOf
  refine .node hget hkind ha rfl ?_ (hbody.fits m rfl) hlaid.ordered ?_
  · intro j b hb
    refine ⟨VariantTable.tag_eq hg.variants hmem hb, fun heq => ?_⟩
    exact VariantTable.tag_injective hg.variants hmem hb ha heq
  · intro c hc
    exact ⟨(hreach c hc).1, (hlaid.inside c hc).2.1, (hreach c hc).2⟩

/-- Trees that stand in order between two cursors, with all in them as it should be. -/
def Grown (g : Grammar) (t : Text) (input : Input) (cursor stop : Nat) (trees : List Tree) : Prop :=
  cursor ≤ input.length → stop ≤ input.length ∧
    Tree.Laid (input.position cursor) (input.position stop) trees ∧
    ∀ c ∈ trees, ∀ x, x.Within c → g.Made t x

theorem Compiled.grown_composes (hg : g.Compiled) (hinput : g.Presents t input) :
    (g.parser.session input).Composes (g.Grown t input) where
  nothing cursor hcursor := ⟨hcursor, .nil (Int.le_refl _), by simp⟩
  skip := by
    intro cursor stop hskips hcursor
    have hbounds := hskips.bounds
    have hlength : (g.parser.session input).input.length = input.length := rfl
    exact ⟨by omega, .nil (hinput.standsFor.skip hskips), by simp⟩
  token := by
    intro name cursor token stop htakes hcursor
    have hbounds := htakes.bounds
    have hlength : (g.parser.session input).input.length = input.length := rfl
    obtain ⟨hstands, hlow, hhigh⟩ := hinput.standsFor.token hcursor htakes
    refine ⟨by omega, .singleton hlow hstands.start_le_stop hhigh, ?_⟩
    intro c hc x hx
    rw [List.mem_singleton.mp hc] at hx
    cases hx
    exact .token hstands
  append := by
    intro cursor middle stop first rest hfirst hrest hcursor
    obtain ⟨hmiddle, hlaid, hmade⟩ := hfirst hcursor
    obtain ⟨hstop, hlaid', hmade'⟩ := hrest hmiddle
    refine ⟨hstop, hlaid.append hlaid', ?_⟩
    intro c hc
    rcases List.mem_append.mp hc with hc | hc
    · exact hmade c hc
    · exact hmade' c hc
  node := by
    intro name r before a after cursor m span hproduction hget hsplit hbody hspan hchildren hcursor
    obtain ⟨hstop, hlaid, hmade⟩ := hchildren hcursor
    obtain ⟨hlow, hle, hhigh, -⟩ := hlaid.spanOf
    obtain rfl := Tree.spannedBy_iff.mp hspan
    refine ⟨hstop, .singleton hlow hle hhigh, ?_⟩
    intro c hc x hx
    rw [List.mem_singleton.mp hc] at hx
    cases hx with
    | refl =>
      exact hg.made_node hg.parserRules hproduction hget hsplit hbody hspan hlaid
    | child hc hx => exact hmade _ hc x hx

/-- The tree of a parse is a node of the start rule, and all that stands in it is as the grammar and
the text say. -/
theorem parse_tree_made {source whitespaceName : Text} (hg : compile source whitespaceName = .ok g)
    (hinput : g.Presents t input) {limit : Nat} {start : Text} {allowTrailing : Bool} {root : Tree}
    (hroot : (g.parser.parse limit start input allowTrailing).1 = .ok root) :
    (∃ tag children span, root = .node start tag children span) ∧
      ∀ x, x.Within root → g.Made t x := by
  have hcompiled := compiled_of_compile hg
  have htagged := hcompiled.tagged
  constructor
  · obtain ⟨-, cursor, stop, -, ⟨hderives⟩, -⟩ := Parser.derives_of_parse htagged hroot
    cases hderives with
    | rule => exact ⟨_, _, _, rfl⟩
  · obtain ⟨stop, hgrown, -⟩ :=
      Parser.composed_of_parse htagged (hcompiled.grown_composes hinput) hroot
    exact (hgrown (Nat.zero_le _)).2.2 root (List.mem_singleton_self root)

def lists : Text := Text.ofString
  "list ::= '[' (item (',' item)*)? ']'; item ::= list -> nested | num; num :== [0-9]+; _ :== ' ';"

def nestedList : Text := Text.ofString "[1, [ ]]"

/-- The tokens of a list in a list are parsed, and its tree is as it should be. -/
theorem parse_tree_made_lists :
    ∃ g tokens root, compile lists (Text.ofString "_") = .ok g ∧
      g.Presents nestedList (.tokens tokens) ∧
      (g.parser.parse 100 (Text.ofString "list") (.tokens tokens) false).1 = .ok root ∧
      root.tokens.length = 6 ∧
      (∃ tag children span, root = .node (Text.ofString "list") tag children span) ∧
      ∀ x, x.Within root → g.Made nestedList x := by
  have htest : (compile lists (Text.ofString "_")).toOption.any (fun g =>
      (g.tokenizer.tokenize nestedList).toOption.any fun tokens =>
        (g.parser.parse 100 (Text.ofString "list") (.tokens tokens.toArray) false).1.toOption.any
          fun root => decide (root.tokens.length = 6)) = true := by
    decide +kernel
  obtain ⟨g, hg, htest⟩ := exists_compile htest
  obtain ⟨tokens, htokens, htest⟩ := exists_of_toOption_any htest
  obtain ⟨root, hroot, htest⟩ := exists_of_toOption_any htest
  obtain ⟨hnode, hmade⟩ := parse_tree_made hg (.tokens htokens) hroot
  exact ⟨g, tokens.toArray, root, hg, .tokens htokens, hroot, of_decide_eq_true htest, hnode, hmade⟩

end Grammar

end GrammarKit
