import GrammarKit.Source.Definition

/-!
Definitions whose spans are changed, all in one way, and nothing else. Moving a definition to where
its text stands in a longer source is one such change; forgetting all spans is another, and it tells
whether two definitions say the same.
-/
namespace GrammarKit.Source

mutual

def Singular.mapSpan (f : Span → Span) : Singular → Singular
  | .group alternatives span => .group (Alternation.mapSpan f alternatives) (f span)
  | .symbol name span => .symbol name (f span)
  | .literal text span => .literal text (f span)
  | .charset text span => .charset text (f span)
  | .escape text span => .escape text (f span)

def Alternation.mapSpan (f : Span → Span) :
    List (Alternative (Item Singular)) → List (Alternative (Item Singular))
  | [] => []
  | a :: rest => Alternative.mapSpan f a :: Alternation.mapSpan f rest

def Alternative.mapSpan (f : Span → Span) :
    Alternative (Item Singular) → Alternative (Item Singular)
  | ⟨doc, name, items, span⟩ => ⟨doc, name, Body.mapSpan f items, f span⟩

def Body.mapSpan (f : Span → Span) : List (Item Singular) → List (Item Singular)
  | [] => []
  | i :: rest => Item.mapSpan f i :: Body.mapSpan f rest

def Item.mapSpan (f : Span → Span) : Item Singular → Item Singular
  | ⟨inner, quantifier, span⟩ => ⟨Singular.mapSpan f inner, quantifier, f span⟩

end

section Composition

variable (g f : Span → Span)

mutual

theorem Singular.mapSpan_mapSpan : ∀ x : Singular,
    (x.mapSpan f).mapSpan g = x.mapSpan (g ∘ f)
  | .group alternatives span => by
    simp only [Singular.mapSpan, Alternation.mapSpan_mapSpan alternatives, Function.comp_apply]
  | .symbol .. | .literal .. | .charset .. | .escape .. => by
    simp only [Singular.mapSpan, Function.comp_apply]

theorem Alternation.mapSpan_mapSpan : ∀ alternatives : List (Alternative (Item Singular)),
    Alternation.mapSpan g (Alternation.mapSpan f alternatives) =
      Alternation.mapSpan (g ∘ f) alternatives
  | [] => by simp only [Alternation.mapSpan]
  | a :: rest => by
    simp only [Alternation.mapSpan, Alternative.mapSpan_mapSpan a,
      Alternation.mapSpan_mapSpan rest]

theorem Alternative.mapSpan_mapSpan : ∀ a : Alternative (Item Singular),
    Alternative.mapSpan g (Alternative.mapSpan f a) = Alternative.mapSpan (g ∘ f) a
  | ⟨doc, name, items, span⟩ => by
    simp only [Alternative.mapSpan, Body.mapSpan_mapSpan items, Function.comp_apply]

theorem Body.mapSpan_mapSpan : ∀ items : List (Item Singular),
    Body.mapSpan g (Body.mapSpan f items) = Body.mapSpan (g ∘ f) items
  | [] => by simp only [Body.mapSpan]
  | i :: rest => by
    simp only [Body.mapSpan, Item.mapSpan_mapSpan i, Body.mapSpan_mapSpan rest]

theorem Item.mapSpan_mapSpan : ∀ i : Item Singular,
    Item.mapSpan g (Item.mapSpan f i) = Item.mapSpan (g ∘ f) i
  | ⟨inner, quantifier, span⟩ => by
    simp only [Item.mapSpan, Singular.mapSpan_mapSpan inner, Function.comp_apply]

end

end Composition

def noSpan (_ : Span) : Span := .empty 0

namespace Definition

def mapSpan (f : Span → Span) (d : Definition) : Definition :=
  { d with alternatives := Alternation.mapSpan f d.alternatives, span := f d.span }

def bare (d : Definition) : Definition := d.mapSpan noSpan

def shift (d : Definition) (offset : Int) : Definition := d.mapSpan (·.shift offset)

theorem bare_shift (d : Definition) (offset : Int) : (d.shift offset).bare = d.bare := by
  simp only [bare, shift, mapSpan, Alternation.mapSpan_mapSpan]
  rfl

/-- When two definitions say the same. -/
theorem bare_eq_iff {d e : Definition} : d.bare = e.bare ↔ d.doc = e.doc ∧ d.name = e.name ∧
    d.kind = e.kind ∧
      Alternation.mapSpan noSpan d.alternatives = Alternation.mapSpan noSpan e.alternatives := by
  simp only [bare, mapSpan, Definition.mk.injEq, noSpan, and_true]

end Definition

end GrammarKit.Source
