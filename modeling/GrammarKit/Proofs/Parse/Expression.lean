import GrammarKit.Proofs.Parse.Derivation
import Mathlib.Computability.RegularExpressions

/-!
Bodies of productions as regular expressions over names. A symbol is a letter, a group is the sum of
its alternatives, and what a group finds is put in its place. Main statement: the names of what a
part finds, tokens and nodes from left to right, are a word of the expression of the part.
-/
namespace GrammarKit

open scoped Computability

def Quantifier.expression (q : Quantifier) (e : RegularExpression Text) : RegularExpression Text :=
  match q with
  | .one => e
  | .maybe => e + 1
  | .any => .star e
  | .many => e * .star e

mutual

def Singular.expression : Singular → RegularExpression Text
  | .group alternatives => Alternation.expression alternatives
  | .symbol name _ => .char name
  | .literal source _ _ => .char source
  | .charset source _ _ => .char source

def Alternation.expression : List (Alternative (Item Singular)) → RegularExpression Text
  | [] => 0
  | a :: rest => Alternative.expression a + Alternation.expression rest

def Alternative.expression : Alternative (Item Singular) → RegularExpression Text
  | ⟨_, _, body, _⟩ => Body.expression body

def Body.expression : List (Item Singular) → RegularExpression Text
  | [] => 1
  | i :: rest => Item.expression i * Body.expression rest

def Item.expression : Item Singular → RegularExpression Text
  | ⟨inner, quantifier⟩ => quantifier.expression (Singular.expression inner)

end

theorem Alternative.expression_eq (a : Alternative (Item Singular)) :
    Alternative.expression a = Body.expression a.body := by
  cases a
  rfl

def Phrase.expression : Phrase → RegularExpression Text
  | .rule name => .char name
  | .choice alternatives => Alternation.expression alternatives
  | .body items => Body.expression items
  | .item i => Item.expression i
  | .row x => .star (Singular.expression x)
  | .singular x => Singular.expression x

section Words

variable {e f : RegularExpression Text} {u v w : List Text}

theorem mem_mul_of_mem (hu : u ∈ e.matches') (hv : v ∈ f.matches') :
    u ++ v ∈ (e * f).matches' := by
  rw [RegularExpression.matches'_mul]
  exact Language.append_mem_mul hu hv

theorem nil_mem_star (e : RegularExpression Text) : [] ∈ (RegularExpression.star e).matches' := by
  rw [RegularExpression.matches'_star]
  exact Language.nil_mem_kstar _

theorem mem_star_of_mem_mul_star (hw : w ∈ (e * .star e).matches') :
    w ∈ (RegularExpression.star e).matches' := by
  rw [RegularExpression.matches'_mul, RegularExpression.matches'_star] at hw
  rw [RegularExpression.matches'_star]
  have hle : e.matches' * (e.matches')∗ ≤ (e.matches')∗ := mul_kstar_le_kstar
  exact hle hw

end Words

namespace Session

variable {s : Session}

/-- The names of trees fit a part of a production. A row that has a first match is not empty. -/
def Fits (s : Session) (cursor : Nat) (names : List Text) : Phrase → Prop
  | .row x => names ∈ (RegularExpression.star (Singular.expression x)).matches' ∧
      ∀ m, s.Derivation (.singular x) cursor (some m) →
        names ∈ (Singular.expression x * .star (Singular.expression x)).matches'
  | p => names ∈ p.expression.matches'

/-- A row that goes on after its first match. -/
theorem fits_row {x : Singular} {cursor : Nat} {first rest : List Text}
    (hfirst : first ∈ (Singular.expression x).matches')
    (hrest : rest ∈ (RegularExpression.star (Singular.expression x)).matches') :
    s.Fits cursor (first ++ rest) (.row x) :=
  have hall := mem_mul_of_mem hfirst hrest
  ⟨mem_star_of_mem_mul_star hall, fun _ _ => hall⟩

/-- What a part finds fits it by name. -/
theorem Derivation.fits {p : Phrase} {cursor : Nat} {o : Outcome} (h : s.Derivation p cursor o) :
    ∀ m, o = some m → s.Fits cursor (m.children.map Tree.name) p := by
  induction h with
  | rule =>
    rintro _ ⟨⟩
    rfl
  | ruleFails | choiceFails | bodyFails | bodyBreaks | manyFails | groupFails | callFails
  | tokenFails => nofun
  | @choiceFirst a rest _ _ _ ih =>
    intro m hm
    show _ ∈ (Alternative.expression a + Alternation.expression rest).matches'
    rw [Alternative.expression_eq]
    exact Or.inl (ih m hm)
  | choiceNext _ _ _ ih =>
    intro m hm
    exact Or.inr (ih m hm)
  | bodyEnd =>
    rintro _ ⟨⟩
    exact Language.nil_mem_one
  | bodyGoes _ _ ih ihrest =>
    rintro _ ⟨⟩
    rw [List.map_append]
    exact mem_mul_of_mem (ih _ rfl) (ihrest _ rfl)
  | one _ ih => exact ih
  | absent =>
    rintro _ ⟨⟩
    exact Or.inr Language.nil_mem_one
  | present _ ih =>
    intro m hm
    exact Or.inl (ih m hm)
  | any _ ih =>
    intro m hm
    exact (ih m hm).1
  | many hfirst _ _ ih =>
    intro m hm
    exact (ih m hm).2 _ hfirst
  | @rowEnd x cursor h =>
    rintro _ ⟨⟩
    refine ⟨nil_mem_star _, fun m hm => ?_⟩
    cases h.unique hm
  | @rowStays x cursor m _ _ ih =>
    rintro _ ⟨⟩
    have hrow := @fits_row s x cursor _ [] (ih m rfl) (nil_mem_star _)
    rwa [List.append_nil] at hrow
  | rowGoes _ _ _ ih ihrest =>
    rintro _ ⟨⟩
    rw [List.map_append]
    exact fits_row (ih _ rfl) (ihrest _ rfl).1
  | group _ _ ih =>
    rintro _ ⟨⟩
    have hmatch := ih _ rfl
    exact hmatch
  | call _ _ _ ih =>
    rintro _ ⟨⟩
    have hmatch := ih _ rfl
    exact hmatch
  | token _ h _ =>
    rintro _ ⟨⟩
    cases h with
    | longest => rfl
    | listed _ _ hname => exact congrArg (fun n => [n]) hname

end Session

end GrammarKit
