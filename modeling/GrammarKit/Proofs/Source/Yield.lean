import GrammarKit.Proofs.Source.Respan
import GrammarKit.Source.Reader

/-!
The lexemes that definitions are written with. The yield of a definition is a row of kinds and
texts, read off the definition by the rules of the grammar of grammars. A row of lexemes spells a
definition if it is such a row and the span of every part runs from the first lexeme of the part to
its last. Main statements: what spells a definition yields it, and what yields a definition spells
it up to spans.
-/
namespace GrammarKit

namespace Lexeme

def content (l : Lexeme) : Kind × Text := (l.kind, l.text)

/-- A kind whose lexemes are all written in the same way. -/
def Kind.isSign : Kind → Bool
  | symbol | string | charset | escape | doc => false
  | _ => true

def Kind.sign (kind : Kind) : Kind × Text := (kind, kind.name)

def isSigned (l : Lexeme) : Bool := !l.kind.isSign || l.text == l.kind.name

theorem content_of_isSigned {l : Lexeme} (h : l.isSigned = true) (hkind : l.kind.isSign = true) :
    l.content = l.kind.sign := by
  simp only [isSigned, hkind, Bool.not_true, Bool.false_or, beq_iff_eq] at h
  rw [content, h, Kind.sign]

def Spans (ls : List Lexeme) (span : Span) : Prop :=
  ∃ first last, ls.head? = some first ∧ ls.getLast? = some last ∧
    span = first.span.through last.span

namespace Spans

variable {ls : List Lexeme} {span other : Span}

theorem single (l : Lexeme) : Spans [l] l.span := ⟨l, l, rfl, rfl, rfl⟩

theorem unique (h : Spans ls span) (hother : Spans ls other) : span = other := by
  obtain ⟨first, last, hfirst, hlast, rfl⟩ := h
  obtain ⟨first', last', hfirst', hlast', rfl⟩ := hother
  rw [hfirst, Option.some.injEq] at hfirst'
  rw [hlast, Option.some.injEq] at hlast'
  rw [hfirst', hlast']

theorem append {others : List Lexeme} (h : Spans ls span) (hother : Spans others other) :
    Spans (ls ++ others) (span.through other) := by
  obtain ⟨first, last, hfirst, hlast, rfl⟩ := h
  obtain ⟨first', last', hfirst', hlast', rfl⟩ := hother
  refine ⟨first, last', ?_, ?_, rfl⟩
  · rw [List.head?_append, hfirst, Option.some_or]
  · rw [List.getLast?_append, hlast', Option.some_or]

theorem ne_nil (h : Spans ls span) : ls ≠ [] := by
  obtain ⟨first, last, hfirst, -⟩ := h
  intro hnil
  rw [hnil] at hfirst
  cases hfirst

theorem exists_of_ne_nil (h : ls ≠ []) : ∃ span, Spans ls span :=
  ⟨_, ls.head h, ls.getLast h, List.head?_eq_some_head h, List.getLast?_eq_some_getLast h, rfl⟩

end Spans

end Lexeme

def Quantifier.kind? : Quantifier → Option Lexeme.Kind
  | one => none
  | maybe => some .maybe
  | any => some .any
  | many => some .many

namespace Source

def DefinitionKind.lexemeKind : DefinitionKind → Lexeme.Kind
  | production => .production
  | token => .tokenRule

def docYield (doc : Option Text) : List (Lexeme.Kind × Text) := doc.toList.map fun t => (.doc, t)

def nameYield : Option Text → List (Lexeme.Kind × Text)
  | none => []
  | some name => [Lexeme.Kind.arrow.sign, (.symbol, name)]

mutual

/-- What a singular yields: the kinds and texts of the lexemes it is written with. -/
def Singular.yield : Singular → List (Lexeme.Kind × Text)
  | .group alternatives _ =>
    Lexeme.Kind.openGroup.sign :: (Alternation.yield alternatives ++ [Lexeme.Kind.closeGroup.sign])
  | .symbol name _ => [(.symbol, name)]
  | .literal text _ => [(.string, text)]
  | .charset text _ => [(.charset, text)]
  | .escape text _ => [(.escape, text)]

def Alternation.yield : List (Alternative (Item Singular)) → List (Lexeme.Kind × Text)
  | [] => []
  | [a] => Alternative.yield a
  | a :: b :: rest => Alternative.yield a ++ Lexeme.Kind.bar.sign :: Alternation.yield (b :: rest)

def Alternative.yield : Alternative (Item Singular) → List (Lexeme.Kind × Text)
  | ⟨doc, name, items, _⟩ => docYield doc ++ (Body.yield items ++ nameYield name)

def Body.yield : List (Item Singular) → List (Lexeme.Kind × Text)
  | [] => []
  | i :: rest => Item.yield i ++ Body.yield rest

def Item.yield : Item Singular → List (Lexeme.Kind × Text)
  | ⟨inner, quantifier, _⟩ => Singular.yield inner ++ quantifier.kind?.toList.map Lexeme.Kind.sign

end

def Definition.yield (d : Definition) : List (Lexeme.Kind × Text) :=
  docYield d.doc ++ (.symbol, d.name) :: d.kind.lexemeKind.sign ::
    (Alternation.yield d.alternatives ++ [Lexeme.Kind.semicolon.sign])

mutual

def Singular.isProper : Singular → Bool
  | .group alternatives _ => !alternatives.isEmpty && Alternation.isProper false alternatives
  | _ => true

def Alternation.isProper (named : Bool) : List (Alternative (Item Singular)) → Bool
  | [] => true
  | a :: rest => Alternative.isProper named a && Alternation.isProper named rest

def Alternative.isProper (named : Bool) : Alternative (Item Singular) → Bool
  | ⟨_, name, items, _⟩ => (named || name.isNone) && !items.isEmpty && Body.isProper items

def Body.isProper : List (Item Singular) → Bool
  | [] => true
  | i :: rest => Item.isProper i && Body.isProper rest

def Item.isProper : Item Singular → Bool
  | ⟨inner, _, _⟩ => Singular.isProper inner

end

/-- Whether nothing in a definition is empty, and names stand only on the top-level alternatives of
a production. -/
def Definition.isProper (d : Definition) : Bool :=
  !d.alternatives.isEmpty && Alternation.isProper (d.kind = .production) d.alternatives

def NameSpelled : Option Text → List Lexeme → Prop
  | none, ls => ls = []
  | some name, ls =>
    ∃ arrow symbol, ls = [arrow, symbol] ∧ arrow.kind = .arrow ∧ symbol.content = (.symbol, name)

mutual

def Singular.Spelled : Singular → List Lexeme → Prop
  | .group alternatives span, ls => Lexeme.Spans ls span ∧
    ∃ opening inside closing, ls = opening :: (inside ++ [closing]) ∧ opening.kind = .openGroup ∧
      Alternation.Spelled alternatives inside ∧ closing.kind = .closeGroup
  | .symbol name span, ls => Lexeme.Spans ls span ∧ ls.map Lexeme.content = [(.symbol, name)]
  | .literal text span, ls => Lexeme.Spans ls span ∧ ls.map Lexeme.content = [(.string, text)]
  | .charset text span, ls => Lexeme.Spans ls span ∧ ls.map Lexeme.content = [(.charset, text)]
  | .escape text span, ls => Lexeme.Spans ls span ∧ ls.map Lexeme.content = [(.escape, text)]

def Alternation.Spelled : List (Alternative (Item Singular)) → List Lexeme → Prop
  | [], ls => ls = []
  | [a], ls => Alternative.Spelled a ls
  | a :: b :: rest, ls =>
    ∃ first bar others, ls = first ++ bar :: others ∧ Alternative.Spelled a first ∧
      bar.kind = .bar ∧ Alternation.Spelled (b :: rest) others

def Alternative.Spelled : Alternative (Item Singular) → List Lexeme → Prop
  | ⟨doc, name, items, span⟩, ls => Lexeme.Spans ls span ∧
    ∃ docs inside names, ls = docs ++ (inside ++ names) ∧
      docs.map Lexeme.content = docYield doc ∧ Body.Spelled items inside ∧ NameSpelled name names

def Body.Spelled : List (Item Singular) → List Lexeme → Prop
  | [], ls => ls = []
  | i :: rest, ls =>
    ∃ first others, ls = first ++ others ∧ Item.Spelled i first ∧ Body.Spelled rest others

def Item.Spelled : Item Singular → List Lexeme → Prop
  | ⟨inner, quantifier, span⟩, ls => Lexeme.Spans ls span ∧
    ∃ first signs, ls = first ++ signs ∧ Singular.Spelled inner first ∧
      signs.map Lexeme.kind = quantifier.kind?.toList

end

/-- A row of lexemes spells a definition, and the span of every part runs over its lexemes. -/
def Definition.Spelled (d : Definition) (ls : List Lexeme) : Prop :=
  Lexeme.Spans ls d.span ∧
    ∃ docs name sign inside semicolon, ls = docs ++ name :: sign :: (inside ++ [semicolon]) ∧
      docs.map Lexeme.content = docYield d.doc ∧ name.content = (.symbol, d.name) ∧
      sign.kind = d.kind.lexemeKind ∧ Alternation.Spelled d.alternatives inside ∧
      semicolon.kind = .semicolon

def Spelled : List Definition → List Lexeme → Prop
  | [], ls => ls = []
  | d :: rest, ls => ∃ first others, ls = first ++ others ∧ d.Spelled first ∧ Spelled rest others

def Signed (ls : List Lexeme) : Prop := ∀ l ∈ ls, l.isSigned = true

theorem Signed.left {first others : List Lexeme} (h : Signed (first ++ others)) : Signed first :=
  fun l hl => h l (List.mem_append_left _ hl)

theorem Signed.right {first others : List Lexeme} (h : Signed (first ++ others)) : Signed others :=
  fun l hl => h l (List.mem_append_right _ hl)

theorem Signed.tail {l : Lexeme} {others : List Lexeme} (h : Signed (l :: others)) :
    Signed others := fun l' hl' => h l' (List.mem_cons_of_mem _ hl')

theorem Signed.content_eq {ls : List Lexeme} (h : Signed ls) {l : Lexeme} (hl : l ∈ ls)
    {kind : Lexeme.Kind} (hkind : l.kind = kind) (hsign : kind.isSign = true) :
    l.content = kind.sign := by
  subst hkind
  exact Lexeme.content_of_isSigned (h l hl) hsign

theorem Signed.map_content {ls : List Lexeme} (h : Signed ls) {quantifier : Quantifier}
    (hkind : ls.map Lexeme.kind = quantifier.kind?.toList) :
    ls.map Lexeme.content = quantifier.kind?.toList.map Lexeme.Kind.sign := by
  rw [← hkind, List.map_map]
  refine List.map_congr_left fun l hl => ?_
  refine h.content_eq hl rfl ?_
  have hmem : l.kind ∈ quantifier.kind?.toList := hkind ▸ List.mem_map_of_mem hl
  revert hmem
  cases quantifier <;> simp +contextual [Quantifier.kind?, Lexeme.Kind.isSign]

theorem NameSpelled.yield {name : Option Text} {ls : List Lexeme} (hsigned : Signed ls)
    (h : NameSpelled name ls) : ls.map Lexeme.content = nameYield name := by
  cases name with
  | none =>
    rw [NameSpelled] at h
    rw [h]
    rfl
  | some name =>
    obtain ⟨arrow, symbol, rfl, harrow, hsymbol⟩ := h
    have hcontent := hsigned.content_eq (List.mem_cons_self) harrow rfl
    rw [List.map_cons, List.map_singleton, hcontent, hsymbol, nameYield]

mutual

/-- What spells a part yields it. -/
theorem Singular.Spelled.yield : ∀ (x : Singular) {ls : List Lexeme}, Signed ls → x.Spelled ls →
    ls.map Lexeme.content = x.yield
  | .group alternatives span, ls, hsigned, h => by
    simp only [Singular.Spelled] at h
    obtain ⟨-, opening, inside, closing, rfl, hopening, hinside, hclosing⟩ := h
    have hopening := hsigned.content_eq (List.mem_cons_self) hopening rfl
    have hclosing := hsigned.tail.right.content_eq (List.mem_singleton_self _) hclosing rfl
    have hinside := Alternation.Spelled.yield alternatives hsigned.tail.left hinside
    simp only [List.map_cons, List.map_append, List.map_nil, hopening, hclosing, hinside,
      Singular.yield]
  | .symbol name span, ls, _, h => by
    simp only [Singular.Spelled] at h
    simpa only [Singular.yield] using h.2
  | .literal text span, ls, _, h => by
    simp only [Singular.Spelled] at h
    simpa only [Singular.yield] using h.2
  | .charset text span, ls, _, h => by
    simp only [Singular.Spelled] at h
    simpa only [Singular.yield] using h.2
  | .escape text span, ls, _, h => by
    simp only [Singular.Spelled] at h
    simpa only [Singular.yield] using h.2

theorem Alternation.Spelled.yield : ∀ (alternatives : List (Alternative (Item Singular)))
    {ls : List Lexeme}, Signed ls → Alternation.Spelled alternatives ls →
    ls.map Lexeme.content = Alternation.yield alternatives
  | [], ls, _, h => by
    simp only [Alternation.Spelled] at h
    simp only [h, List.map_nil, Alternation.yield]
  | [a], ls, hsigned, h => by
    simp only [Alternation.Spelled] at h
    simp only [Alternation.yield, Alternative.Spelled.yield a hsigned h]
  | a :: b :: rest, ls, hsigned, h => by
    simp only [Alternation.Spelled] at h
    obtain ⟨first, bar, others, rfl, hfirst, hbar, hothers⟩ := h
    have hbar := hsigned.right.content_eq (List.mem_cons_self) hbar rfl
    have hfirst := Alternative.Spelled.yield a hsigned.left hfirst
    have hothers := Alternation.Spelled.yield (b :: rest) hsigned.right.tail hothers
    simp only [List.map_append, List.map_cons, hfirst, hbar, hothers, Alternation.yield]

theorem Alternative.Spelled.yield : ∀ (a : Alternative (Item Singular)) {ls : List Lexeme},
    Signed ls → Alternative.Spelled a ls → ls.map Lexeme.content = Alternative.yield a
  | ⟨doc, name, items, span⟩, ls, hsigned, h => by
    simp only [Alternative.Spelled] at h
    obtain ⟨-, docs, inside, names, rfl, hdocs, hinside, hnames⟩ := h
    have hinside := Body.Spelled.yield items hsigned.right.left hinside
    have hnames := hnames.yield hsigned.right.right
    simp only [List.map_append, hdocs, hinside, hnames, Alternative.yield]

theorem Body.Spelled.yield : ∀ (items : List (Item Singular)) {ls : List Lexeme}, Signed ls →
    Body.Spelled items ls → ls.map Lexeme.content = Body.yield items
  | [], ls, _, h => by
    simp only [Body.Spelled] at h
    simp only [h, List.map_nil, Body.yield]
  | i :: rest, ls, hsigned, h => by
    simp only [Body.Spelled] at h
    obtain ⟨first, others, rfl, hfirst, hothers⟩ := h
    have hfirst := Item.Spelled.yield i hsigned.left hfirst
    have hothers := Body.Spelled.yield rest hsigned.right hothers
    simp only [List.map_append, hfirst, hothers, Body.yield]

theorem Item.Spelled.yield : ∀ (i : Item Singular) {ls : List Lexeme}, Signed ls →
    Item.Spelled i ls → ls.map Lexeme.content = Item.yield i
  | ⟨inner, quantifier, span⟩, ls, hsigned, h => by
    simp only [Item.Spelled] at h
    obtain ⟨-, first, signs, rfl, hfirst, hsigns⟩ := h
    have hfirst := Singular.Spelled.yield inner hsigned.left hfirst
    have hsigns := hsigned.right.map_content hsigns
    simp only [List.map_append, hfirst, hsigns, Item.yield]

end

theorem Definition.Spelled.yield {d : Definition} {ls : List Lexeme} (hsigned : Signed ls)
    (h : d.Spelled ls) : ls.map Lexeme.content = d.yield := by
  obtain ⟨-, docs, name, sign, inside, semicolon, rfl, hdocs, hname, hsign, hinside, hsemicolon⟩ :=
    h
  have hrest := hsigned.right.tail
  have hsign := hrest.content_eq List.mem_cons_self hsign (by cases d.kind <;> rfl)
  have hsemicolon := hrest.tail.right.content_eq (List.mem_singleton_self _) hsemicolon rfl
  have hinside := Alternation.Spelled.yield d.alternatives hrest.tail.left hinside
  simp only [List.map_append, List.map_cons, List.map_nil, hdocs, hname, hsign, hinside,
    hsemicolon, Definition.yield]

theorem Spelled.yield : ∀ {ds : List Definition} {ls : List Lexeme}, Signed ls → Spelled ds ls →
    ls.map Lexeme.content = ds.flatMap Definition.yield := by
  intro ds
  induction ds with
  | nil =>
    intro ls _ h
    rw [Spelled] at h
    rw [h]
    rfl
  | cons d rest ih =>
    intro ls hsigned h
    obtain ⟨first, others, rfl, hfirst, hothers⟩ := h
    rw [List.map_append, hfirst.yield hsigned.left, ih hsigned.right hothers, List.flatMap_cons]

theorem Singular.Spelled.spans {x : Singular} {ls : List Lexeme} (h : x.Spelled ls) :
    Lexeme.Spans ls x.span := by
  cases x <;> simp only [Singular.Spelled] at h <;> exact h.1

theorem Item.Spelled.spans {i : Item Singular} {ls : List Lexeme} (h : Item.Spelled i ls) :
    Lexeme.Spans ls i.span := by
  cases i
  simp only [Item.Spelled] at h
  exact h.1

/-- A body is spelled by something, unless it is empty. -/
theorem Body.Spelled.ne_nil {items : List (Item Singular)} {ls : List Lexeme}
    (hne : items.isEmpty = false) (h : Body.Spelled items ls) : ls ≠ [] := by
  cases items with
  | nil => cases hne
  | cons i rest =>
    simp only [Body.Spelled] at h
    obtain ⟨first, others, rfl, hfirst, -⟩ := h
    exact List.append_ne_nil_of_left_ne_nil hfirst.spans.ne_nil others

theorem exists_single_of_content {ls : List Lexeme} {c : Lexeme.Kind × Text}
    (h : ls.map Lexeme.content = [c]) : ∃ span, Lexeme.Spans ls span := by
  obtain ⟨l, rfl, -⟩ := List.map_eq_singleton_iff.mp h
  exact ⟨l.span, .single l⟩

theorem nameSpelled_of_yield {name : Option Text} {ls : List Lexeme}
    (h : ls.map Lexeme.content = nameYield name) : NameSpelled name ls := by
  cases name with
  | none => exact List.map_eq_nil_iff.mp h
  | some name =>
    obtain ⟨arrow, others, rfl, harrow, hothers⟩ := List.map_eq_cons_iff.mp h
    obtain ⟨symbol, rfl, hsymbol⟩ := List.map_eq_singleton_iff.mp hothers
    exact ⟨arrow, symbol, rfl, congrArg Prod.fst harrow, hsymbol⟩

mutual

/-- What yields a part spells it, with the spans that the lexemes give it. -/
theorem Singular.exists_spelled : ∀ (x : Singular), x.isProper = true → ∀ {ls : List Lexeme},
    ls.map Lexeme.content = x.yield →
    ∃ y : Singular, y.mapSpan noSpan = x.mapSpan noSpan ∧ y.isProper = true ∧ y.Spelled ls
  | .group alternatives span, hproper, ls, h => by
    simp only [Singular.isProper, Bool.and_eq_true, Bool.not_eq_true'] at hproper
    simp only [Singular.yield] at h
    obtain ⟨opening, rest, rfl, hopening, hrest⟩ := List.map_eq_cons_iff.mp h
    obtain ⟨inside, last, rfl, hinside, hlast⟩ := List.map_eq_append_iff.mp hrest
    obtain ⟨closing, rfl, hclosing⟩ := List.map_eq_singleton_iff.mp hlast
    obtain ⟨others, hsame, hothers, hspelled⟩ :=
      Alternation.exists_spelled false alternatives hproper.2 hinside
    obtain ⟨place, hplace⟩ := Lexeme.Spans.exists_of_ne_nil
      (List.cons_ne_nil opening (inside ++ [closing]))
    refine ⟨.group others place, ?_, ?_, ?_⟩
    · simp only [Singular.mapSpan, hsame, noSpan]
    · have hempty : others.isEmpty = alternatives.isEmpty := by
        cases others <;> cases alternatives <;> simp [Alternation.mapSpan] at hsame ⊢
      simp only [Singular.isProper, hempty, hproper.1, hothers, Bool.not_false, Bool.and_self]
    · simp only [Singular.Spelled]
      exact ⟨hplace, opening, inside, closing, rfl, congrArg Prod.fst hopening, hspelled,
        congrArg Prod.fst hclosing⟩
  | .symbol name span, _, ls, h => by
    simp only [Singular.yield] at h
    obtain ⟨place, hplace⟩ := exists_single_of_content h
    refine ⟨.symbol name place, by simp only [Singular.mapSpan, noSpan], rfl, ?_⟩
    simp only [Singular.Spelled]
    exact ⟨hplace, h⟩
  | .literal text span, _, ls, h => by
    simp only [Singular.yield] at h
    obtain ⟨place, hplace⟩ := exists_single_of_content h
    refine ⟨.literal text place, by simp only [Singular.mapSpan, noSpan], rfl, ?_⟩
    simp only [Singular.Spelled]
    exact ⟨hplace, h⟩
  | .charset text span, _, ls, h => by
    simp only [Singular.yield] at h
    obtain ⟨place, hplace⟩ := exists_single_of_content h
    refine ⟨.charset text place, by simp only [Singular.mapSpan, noSpan], rfl, ?_⟩
    simp only [Singular.Spelled]
    exact ⟨hplace, h⟩
  | .escape text span, _, ls, h => by
    simp only [Singular.yield] at h
    obtain ⟨place, hplace⟩ := exists_single_of_content h
    refine ⟨.escape text place, by simp only [Singular.mapSpan, noSpan], rfl, ?_⟩
    simp only [Singular.Spelled]
    exact ⟨hplace, h⟩

theorem Alternation.exists_spelled (named : Bool) :
    ∀ (alternatives : List (Alternative (Item Singular))),
    Alternation.isProper named alternatives = true → ∀ {ls : List Lexeme},
    ls.map Lexeme.content = Alternation.yield alternatives →
    ∃ others, Alternation.mapSpan noSpan others = Alternation.mapSpan noSpan alternatives ∧
      Alternation.isProper named others = true ∧ Alternation.Spelled others ls
  | [], _, ls, h => by
    simp only [Alternation.yield, List.map_eq_nil_iff] at h
    exact ⟨[], rfl, rfl, by simpa only [Alternation.Spelled] using h⟩
  | [a], hproper, ls, h => by
    simp only [Alternation.isProper, Bool.and_true] at hproper
    simp only [Alternation.yield] at h
    obtain ⟨b, hsame, hb, hspelled⟩ := Alternative.exists_spelled named a hproper h
    refine ⟨[b], ?_, ?_, ?_⟩
    · simp only [Alternation.mapSpan, hsame]
    · simp only [Alternation.isProper, hb, Bool.and_self]
    · simpa only [Alternation.Spelled] using hspelled
  | a :: b :: rest, hproper, ls, h => by
    rw [Alternation.isProper, Bool.and_eq_true] at hproper
    simp only [Alternation.yield] at h
    obtain ⟨first, more, rfl, hfirst, hmore⟩ := List.map_eq_append_iff.mp h
    obtain ⟨bar, others, rfl, hbar, hothers⟩ := List.map_eq_cons_iff.mp hmore
    obtain ⟨a', hsame, ha', hspelled⟩ := Alternative.exists_spelled named a hproper.1 hfirst
    obtain ⟨rest', hsame', hrest', hspelled'⟩ :=
      Alternation.exists_spelled named (b :: rest) hproper.2 hothers
    cases rest' with
    | nil => simp [Alternation.mapSpan] at hsame'
    | cons b' rest' =>
      refine ⟨a' :: b' :: rest', ?_, ?_, ?_⟩
      · rw [Alternation.mapSpan, hsame, hsame']
        simp only [Alternation.mapSpan]
      · rw [Alternation.isProper, ha', hrest', Bool.and_self]
      · simp only [Alternation.Spelled]
        exact ⟨first, bar, others, rfl, hspelled, congrArg Prod.fst hbar, hspelled'⟩

theorem Alternative.exists_spelled (named : Bool) : ∀ (a : Alternative (Item Singular)),
    Alternative.isProper named a = true → ∀ {ls : List Lexeme},
    ls.map Lexeme.content = Alternative.yield a →
    ∃ b, Alternative.mapSpan noSpan b = Alternative.mapSpan noSpan a ∧
      Alternative.isProper named b = true ∧ Alternative.Spelled b ls
  | ⟨doc, name, items, span⟩, hproper, ls, h => by
    simp only [Alternative.isProper, Bool.and_eq_true, Bool.not_eq_true'] at hproper
    simp only [Alternative.yield] at h
    obtain ⟨docs, more, rfl, hdocs, hmore⟩ := List.map_eq_append_iff.mp h
    obtain ⟨inside, names, rfl, hinside, hnames⟩ := List.map_eq_append_iff.mp hmore
    obtain ⟨others, hsame, hothers, hspelled⟩ := Body.exists_spelled items hproper.2 hinside
    have hempty : others.isEmpty = false := by
      cases others <;> cases items <;> simp [Body.mapSpan] at hsame hproper ⊢
    have hne : docs ++ (inside ++ names) ≠ [] := by
      simp [Body.Spelled.ne_nil hempty hspelled]
    obtain ⟨place, hplace⟩ := Lexeme.Spans.exists_of_ne_nil hne
    refine ⟨⟨doc, name, others, place⟩, ?_, ?_, ?_⟩
    · simp only [Alternative.mapSpan, hsame, noSpan]
    · simp only [Alternative.isProper, hproper.1.1, hempty, hothers, Bool.not_false, Bool.and_self]
    · simp only [Alternative.Spelled]
      exact ⟨hplace, docs, inside, names, rfl, hdocs, hspelled, nameSpelled_of_yield hnames⟩

theorem Body.exists_spelled : ∀ (items : List (Item Singular)), Body.isProper items = true →
    ∀ {ls : List Lexeme}, ls.map Lexeme.content = Body.yield items →
    ∃ others, Body.mapSpan noSpan others = Body.mapSpan noSpan items ∧
      Body.isProper others = true ∧ Body.Spelled others ls
  | [], _, ls, h => by
    simp only [Body.yield, List.map_eq_nil_iff] at h
    exact ⟨[], rfl, rfl, by simpa only [Body.Spelled] using h⟩
  | i :: rest, hproper, ls, h => by
    simp only [Body.isProper, Bool.and_eq_true] at hproper
    simp only [Body.yield] at h
    obtain ⟨first, others, rfl, hfirst, hothers⟩ := List.map_eq_append_iff.mp h
    obtain ⟨i', hsame, hi', hspelled⟩ := Item.exists_spelled i hproper.1 hfirst
    obtain ⟨rest', hsame', hrest', hspelled'⟩ := Body.exists_spelled rest hproper.2 hothers
    refine ⟨i' :: rest', ?_, ?_, ?_⟩
    · simp only [Body.mapSpan, hsame, hsame']
    · simp only [Body.isProper, hi', hrest', Bool.and_self]
    · simp only [Body.Spelled]
      exact ⟨first, others, rfl, hspelled, hspelled'⟩

theorem Item.exists_spelled : ∀ (i : Item Singular), Item.isProper i = true →
    ∀ {ls : List Lexeme}, ls.map Lexeme.content = Item.yield i →
    ∃ j, Item.mapSpan noSpan j = Item.mapSpan noSpan i ∧ Item.isProper j = true ∧ Item.Spelled j ls
  | ⟨inner, quantifier, span⟩, hproper, ls, h => by
    simp only [Item.isProper] at hproper
    simp only [Item.yield] at h
    obtain ⟨first, signs, rfl, hfirst, hsigns⟩ := List.map_eq_append_iff.mp h
    obtain ⟨x, hsame, hx, hspelled⟩ := Singular.exists_spelled inner hproper hfirst
    obtain ⟨place, hplace⟩ := Lexeme.Spans.exists_of_ne_nil
      (List.append_ne_nil_of_left_ne_nil hspelled.spans.ne_nil signs)
    have hkinds : signs.map Lexeme.kind = quantifier.kind?.toList := by
      simpa [Lexeme.content, Lexeme.Kind.sign, Function.comp_def]
        using congrArg (List.map Prod.fst) hsigns
    refine ⟨⟨x, quantifier, place⟩, ?_, ?_, ?_⟩
    · simp only [Item.mapSpan, hsame, noSpan]
    · simpa only [Item.isProper] using hx
    · simp only [Item.Spelled]
      exact ⟨hplace, first, signs, rfl, hspelled, hkinds⟩

end

theorem Definition.exists_spelled {d : Definition} (hproper : d.isProper = true)
    {ls : List Lexeme} (h : ls.map Lexeme.content = d.yield) :
    ∃ e : Definition, e.bare = d.bare ∧ e.isProper = true ∧ e.Spelled ls := by
  simp only [Definition.isProper, Bool.and_eq_true, Bool.not_eq_true'] at hproper
  obtain ⟨docs, more, rfl, hdocs, hmore⟩ := List.map_eq_append_iff.mp h
  obtain ⟨name, more, rfl, hname, hmore⟩ := List.map_eq_cons_iff.mp hmore
  obtain ⟨sign, more, rfl, hsign, hmore⟩ := List.map_eq_cons_iff.mp hmore
  obtain ⟨inside, last, rfl, hinside, hlast⟩ := List.map_eq_append_iff.mp hmore
  obtain ⟨semicolon, rfl, hsemicolon⟩ := List.map_eq_singleton_iff.mp hlast
  obtain ⟨others, hsame, hothers, hspelled⟩ := Alternation.exists_spelled _ _ hproper.2 hinside
  have hne : docs ++ name :: sign :: (inside ++ [semicolon]) ≠ [] := by simp
  obtain ⟨place, hplace⟩ := Lexeme.Spans.exists_of_ne_nil hne
  have hempty : others.isEmpty = d.alternatives.isEmpty := by
    cases others <;> cases hd : d.alternatives <;> simp [Alternation.mapSpan, hd] at hsame ⊢
  refine ⟨{ d with alternatives := others, span := place }, ?_, ?_, hplace, ?_⟩
  · simp only [Definition.bare, Definition.mapSpan, hsame, noSpan]
  · simp only [Definition.isProper, hempty, hproper.1, hothers, Bool.not_false, Bool.and_self]
  · exact ⟨docs, name, sign, inside, semicolon, rfl, hdocs, hname, congrArg Prod.fst hsign,
      hspelled, congrArg Prod.fst hsemicolon⟩

theorem exists_spelled : ∀ {ds : List Definition}, (∀ d ∈ ds, d.isProper = true) →
    ∀ {ls : List Lexeme}, ls.map Lexeme.content = ds.flatMap Definition.yield →
    ∃ es : List Definition, es.map Definition.bare = ds.map Definition.bare ∧
      (∀ e ∈ es, e.isProper = true) ∧ Spelled es ls := by
  intro ds
  induction ds with
  | nil =>
    intro _ ls h
    exact ⟨[], rfl, nofun, List.map_eq_nil_iff.mp h⟩
  | cons d rest ih =>
    intro hproper ls h
    rw [List.flatMap_cons] at h
    obtain ⟨first, others, rfl, hfirst, hothers⟩ := List.map_eq_append_iff.mp h
    obtain ⟨e, hsame, he, hspelled⟩ :=
      Definition.exists_spelled (hproper d List.mem_cons_self) hfirst
    obtain ⟨es, hsame', hes, hspelled'⟩ :=
      ih (fun d hd => hproper d (List.mem_cons_of_mem _ hd)) hothers
    refine ⟨e :: es, ?_, ?_, first, others, rfl, hspelled, hspelled'⟩
    · rw [List.map_cons, List.map_cons, hsame, hsame']
    · intro e' he'
      rcases List.mem_cons.mp he' with rfl | he'
      · exact he
      · exact hes e' he'

end Source

end GrammarKit
