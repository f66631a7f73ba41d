import GrammarKit.Proofs.Effect
import GrammarKit.Source.Reader

/-!
What definitions are like that were read from a text. A name starts as symbols do, and the text of a
pattern does not, so that no pattern goes by the name of a rule. No alternation and no body is
empty.
-/
namespace GrammarKit

def Text.isName (t : Text) : Bool := t.head?.any Lexeme.startsSymbol

namespace Lexeme

def Kind.admits (kind : Kind) (t : Text) : Bool :=
  match kind with
  | symbol => t.isName
  | string | charset | escape => !t.isName
  | _ => true

def isWorded (l : Lexeme) : Bool := l.kind.admits l.text

/-- Operators are neither symbols nor patterns. -/
theorem admits_of_operator? {t : Text} {o : Text × Kind} (h : operator? t = some o) (other : Text) :
    o.2.admits other = true := by
  have hall : ∀ o ∈ operators, o.2 ≠ .symbol ∧ o.2 ≠ .string ∧ o.2 ≠ .charset ∧
      o.2 ≠ .escape := by decide
  have hkind := hall o (List.mem_of_find?_eq_some h)
  cases hcase : o.2 <;> simp_all [Kind.admits]

end Lexeme

namespace Piece

variable {u : CodeUnit} {rest : Text} {piece : Piece} {kind : Lexeme.Kind} {text : Text}

theorem isName_take (u : CodeUnit) (rest : Text) {width : Nat} (h : 0 < width) :
    Text.isName ((u :: rest).take width) = Lexeme.startsSymbol u := by
  cases width with
  | zero => omega
  | succ n => simp [Text.isName]

theorem admits_of_delimited {closing : CodeUnit} {problem : GrammarError.Problem}
    {opening : Lexeme.Kind}
    (hfree : Lexeme.startsSymbol u = false) (hopening : opening = .string ∨ opening = .charset)
    (h : delimited opening closing problem (u :: rest) rest = .ok piece)
    (hlexeme : piece.lexeme = some (kind, text)) : kind.admits text = true := by
  unfold delimited at h
  split at h
  · next width hwidth =>
    cases h
    cases hlexeme
    have hpos := Lexeme.lt_delimitedWidth hwidth
    have hname := isName_take u rest (by omega : 0 < width)
    rw [hfree] at hname
    rcases hopening with rfl | rfl
    · simp [Lexeme.Kind.admits, hname]
    · simp [Lexeme.Kind.admits, hname]
  · cases h

theorem admits_of_ofUnits (h : ofUnits u rest = .ok piece)
    (hlexeme : piece.lexeme = some (kind, text)) : kind.admits text = true := by
  unfold ofUnits at h
  simp only at h
  split at h
  · next hstart =>
    cases h
    cases hlexeme
    have hname := isName_take u rest (Lexeme.le_symbolWidth 1 rest)
    simpa [Lexeme.Kind.admits, hstart] using hname
  · next hstart =>
    have hfree : Lexeme.startsSymbol u = false := by simpa using hstart
    split at h
    · exact admits_of_delimited hfree (Or.inl rfl) h hlexeme
    · split at h
      · exact admits_of_delimited hfree (Or.inr rfl) h hlexeme
      · split at h
        · cases h
          cases hlexeme
          have hname := isName_take u rest (Escape.extent_pos rest)
          simp [Lexeme.Kind.admits, hname, hfree]
        · split at h
          · next hoperator =>
            cases h
            cases hlexeme
            exact Lexeme.admits_of_operator? hoperator _
          · cases h

theorem admits_of_front (h : front u rest = .ok piece)
    (hlexeme : piece.lexeme = some (kind, text)) : kind.admits text = true := by
  unfold front at h
  split at h
  · cases h
    cases hlexeme
  · split at h
    · cases h
    · next doc body width _ =>
      cases h
      cases doc with
      | false => cases hlexeme
      | true =>
        cases hlexeme
        rfl
    · exact admits_of_ofUnits h hlexeme

end Piece

/-- What holds of every lexeme that can stand in front holds of all lexemes of a source. -/
theorem Lexeme.forall_of_scanFrom {good : Kind → Text → Prop}
    (hgood : ∀ {u rest piece kind text}, Piece.front u rest = .ok piece →
      piece.lexeme = some (kind, text) → good kind text) (offset : Nat) (t : Text) :
    ∀ lexemes, scanFrom offset t = .ok lexemes → ∀ l ∈ lexemes, good l.kind l.text := by
  fun_induction scanFrom offset t with
  | case1 =>
    intro lexemes h
    cases h
    simp
  | case2 => exact fun _ h => nomatch h
  | case3 offset u rest piece hfront ih =>
    intro lexemes h
    obtain ⟨others, hothers, h⟩ := exists_of_bind_eq_ok h
    split at h
    · next kind text hlexeme =>
      cases h
      intro l hl
      rcases List.mem_cons.mp hl with rfl | hl
      · exact hgood hfront hlexeme
      · exact ih others hothers l hl
    · cases h
      exact ih _ hothers

/-- The lexemes of a source have texts that their kinds admit. -/
theorem Lexeme.isWorded_of_scanFrom (offset : Nat) (t : Text) (lexemes : List Lexeme)
    (h : scanFrom offset t = .ok lexemes) : ∀ l ∈ lexemes, l.isWorded = true :=
  forall_of_scanFrom Piece.admits_of_front offset t lexemes h

namespace Source

mutual

def Singular.isWorded : Singular → Bool
  | .group alternatives _ => !alternatives.isEmpty && Alternation.isWorded alternatives
  | .symbol .. => true
  | .literal text _ => !text.isName
  | .charset text _ => !text.isName
  | .escape text _ => !text.isName

def Alternation.isWorded : List (Alternative (Item Singular)) → Bool
  | [] => true
  | a :: rest => Alternative.isWorded a && Alternation.isWorded rest

def Alternative.isWorded : Alternative (Item Singular) → Bool
  | ⟨_, _, items, _⟩ => !items.isEmpty && Body.isWorded items

def Body.isWorded : List (Item Singular) → Bool
  | [] => true
  | i :: rest => Item.isWorded i && Body.isWorded rest

def Item.isWorded : Item Singular → Bool
  | ⟨inner, _, _⟩ => Singular.isWorded inner

end

/-- A definition as it can be read: its name starts as symbols do, and no part of it is empty. -/
structure Definition.Worded (d : Definition) : Prop where
  name : d.name.isName = true
  nonempty : d.alternatives ≠ []
  alternatives : Alternation.isWorded d.alternatives = true

namespace Reader

def Worded (rest : List Lexeme) : Prop := ∀ l ∈ rest, l.isWorded = true

theorem Worded.tail {l : Lexeme} {rest : List Lexeme} (h : Worded (l :: rest)) : Worded rest :=
  fun l' hl' => h l' (List.mem_cons_of_mem l hl')

theorem accept_worded {kind : Lexeme.Kind} {rest after : List Lexeme} {l : Option Lexeme}
    (hrest : Worded rest) (h : accept kind rest = (l, after)) : Worded after := by
  unfold accept at h
  split at h
  · cases h
    exact hrest
  · split at h
    · cases h
      exact hrest.tail
    · cases h
      exact hrest

theorem demand_worded {ctx : Context} {kind : Lexeme.Kind} {what : Expectation}
    {rest after : List Lexeme} {l : Lexeme} (hrest : Worded rest)
    (h : demand ctx kind what rest = .ok (l, after)) :
    Worded after ∧ l.kind = kind ∧ l.isWorded = true := by
  unfold demand accept at h
  cases rest with
  | nil => cases h
  | cons first rest =>
    by_cases hkind : first.kind = kind
    · simp only [if_pos hkind] at h
      cases h
      exact ⟨hrest.tail, hkind, hrest _ List.mem_cons_self⟩
    · simp only [if_neg hkind] at h
      cases h

theorem quantified_worded {inner : Singular} {rest : List Lexeme}
    (hinner : inner.isWorded = true) (hrest : Worded rest) :
    Item.isWorded (quantified inner rest).1 = true ∧ Worded (quantified inner rest).2 := by
  unfold quantified
  split
  · exact ⟨hinner, hrest⟩
  · split
    · exact ⟨hinner, hrest.tail⟩
    · exact ⟨hinner, hrest⟩

theorem alternativeName_worded {ctx : Context} {named : Bool} {rest after : List Lexeme}
    {name : Option Lexeme} (hrest : Worded rest)
    (h : alternativeName ctx named rest = .ok (name, after)) : Worded after := by
  unfold alternativeName at h
  split at h
  · next haccept =>
    cases h
    exact accept_worded hrest haccept
  · next haccept =>
    split at h
    · obtain ⟨⟨l, rest'⟩, hdemand, h⟩ := exists_of_bind_eq_ok h
      cases h
      exact (demand_worded (accept_worded hrest haccept) hdemand).1
    · cases h

mutual

/-- What is read off worded lexemes is worded, and so are the lexemes that it leaves. -/
theorem alternation_worded (ctx : Context) (named : Bool) : ∀ (n : Nat) {rest after : List Lexeme}
    {alternatives : Alternation}, Worded rest →
      alternation ctx named n rest = .ok (alternatives, after) →
        (alternatives ≠ [] ∧ Alternation.isWorded alternatives = true) ∧ Worded after
  | 0, rest, after, alternatives, _, h => by
    simp only [alternation] at h
    cases h
  | n + 1, rest, after, alternatives, hrest, h => by
    simp only [alternation] at h
    obtain ⟨⟨a, middle⟩, hfirst, h⟩ := exists_of_bind_eq_ok h
    obtain ⟨ha, hmiddle⟩ := alternative_worded ctx named n hrest hfirst
    simp only at h
    split at h
    · next haccept =>
      cases h
      refine ⟨⟨by simp, ?_⟩, accept_worded hmiddle haccept⟩
      simp only [Alternation.isWorded, ha, Bool.and_self]
    · next haccept =>
      obtain ⟨⟨others, last⟩, hothers, h⟩ := exists_of_bind_eq_ok h
      have hafter := accept_worded hmiddle haccept
      obtain ⟨⟨-, hworded⟩, hlast⟩ := alternation_worded ctx named n hafter hothers
      cases h
      refine ⟨⟨by simp, ?_⟩, hlast⟩
      simp only [Alternation.isWorded, ha, hworded, Bool.and_self]

theorem alternative_worded (ctx : Context) (named : Bool) : ∀ (n : Nat) {rest after : List Lexeme}
    {a : Alternative (Item Singular)}, Worded rest →
      alternative ctx named n rest = .ok (a, after) →
        Alternative.isWorded a = true ∧ Worded after
  | 0, rest, after, a, _, h => by
    simp only [alternative] at h
    cases h
  | n + 1, rest, after, a, hrest, h => by
    simp only [alternative] at h
    obtain ⟨⟨items, middle⟩, hitems, h⟩ := exists_of_bind_eq_ok h
    have hbegin : Worded (accept .doc rest).2 := accept_worded hrest rfl
    obtain ⟨hworded, hmiddle⟩ := body_worded ctx n hbegin hitems
    simp only at h
    split at h
    · cases h
    · obtain ⟨⟨name, last⟩, hname, h⟩ := exists_of_bind_eq_ok h
      cases h
      exact ⟨by simpa [assemble, Alternative.isWorded] using hworded,
        alternativeName_worded hmiddle hname⟩

theorem body_worded (ctx : Context) : ∀ (n : Nat) {rest after : List Lexeme} {items : Body},
    Worded rest → body ctx n rest = .ok (items, after) →
      Body.isWorded items = true ∧ Worded after
  | 0, rest, after, items, _, h => by
    simp only [body] at h
    cases h
  | n + 1, [], after, items, hrest, h => by
    simp only [body] at h
    cases h
    exact ⟨rfl, hrest⟩
  | n + 1, l :: rest, after, items, hrest, h => by
    simp only [body] at h
    split at h
    · obtain ⟨⟨inner, middle⟩, hinner, h⟩ := exists_of_bind_eq_ok h
      obtain ⟨hworded, hmiddle⟩ := singular_worded ctx n hrest hinner
      obtain ⟨⟨others, last⟩, hothers, h⟩ := exists_of_bind_eq_ok h
      obtain ⟨hitem, hquantified⟩ := quantified_worded hworded hmiddle
      obtain ⟨hrestWorded, hlast⟩ := body_worded ctx n hquantified hothers
      cases h
      refine ⟨?_, hlast⟩
      simp only [Body.isWorded, hitem, hrestWorded, Bool.and_self]
    · cases h
      exact ⟨rfl, hrest⟩

theorem singular_worded (ctx : Context) : ∀ (n : Nat) {rest after : List Lexeme} {x : Singular},
    Worded rest → singular ctx n rest = .ok (x, after) → x.isWorded = true ∧ Worded after
  | 0, rest, after, x, _, h => by
    simp only [singular] at h
    cases h
  | n + 1, [], after, x, _, h => by
    simp only [singular] at h
    cases h
  | n + 1, l :: rest, after, x, hrest, h => by
    have hl := hrest l List.mem_cons_self
    simp only [Lexeme.isWorded] at hl
    simp only [singular] at h
    split at h
    · obtain ⟨⟨alternatives, middle⟩, halternatives, h⟩ := exists_of_bind_eq_ok h
      obtain ⟨⟨hne, hworded⟩, hmiddle⟩ := alternation_worded ctx false n hrest.tail halternatives
      obtain ⟨⟨close, last⟩, hclose, h⟩ := exists_of_bind_eq_ok h
      cases h
      refine ⟨?_, (demand_worded hmiddle hclose).1⟩
      simp [Singular.isWorded, hne, hworded]
    · cases h
      exact ⟨rfl, hrest.tail⟩
    · next hkind =>
      cases h
      rw [hkind] at hl
      exact ⟨hl, hrest.tail⟩
    · next hkind =>
      cases h
      rw [hkind] at hl
      exact ⟨hl, hrest.tail⟩
    · next hkind =>
      cases h
      rw [hkind] at hl
      exact ⟨hl, hrest.tail⟩
    · cases h

end

theorem definitionKind_worded {ctx : Context} {rest after : List Lexeme} {kind : DefinitionKind}
    (hrest : Worded rest) (h : definitionKind ctx rest = .ok (kind, after)) : Worded after := by
  unfold definitionKind at h
  split at h
  · next haccept =>
    cases h
    exact accept_worded hrest haccept
  · next haccept =>
    split at h
    · next haccept' =>
      cases h
      exact accept_worded (accept_worded hrest haccept) haccept'
    · cases h

theorem definition_worded {sourceLength : Nat} {rest after : List Lexeme} {d : Definition}
    (hrest : Worded rest) (h : definition sourceLength rest = .ok (d, after)) :
    d.Worded ∧ Worded after := by
  unfold definition at h
  simp only at h
  obtain ⟨⟨name, afterName⟩, hname, h⟩ := exists_of_bind_eq_ok h
  obtain ⟨⟨kind, afterSign⟩, hsign, h⟩ := exists_of_bind_eq_ok h
  obtain ⟨⟨alternatives, afterBody⟩, hbody, h⟩ := exists_of_bind_eq_ok h
  obtain ⟨⟨semicolon, last⟩, hsemicolon, h⟩ := exists_of_bind_eq_ok h
  have hbegin : Worded (accept .doc rest).2 := accept_worded hrest rfl
  obtain ⟨hafterName, hkind, hworded⟩ := demand_worded hbegin hname
  have hafterSign := definitionKind_worded hafterName hsign
  obtain ⟨⟨hne, halternatives⟩, hafterBody⟩ := alternation_worded _ _ _ hafterSign hbody
  cases h
  rw [Lexeme.isWorded, hkind] at hworded
  exact ⟨⟨hworded, hne, halternatives⟩, (demand_worded hafterBody hsemicolon).1⟩

theorem definitions_worded {sourceLength : Nat} (limit : Nat) : ∀ {rest : List Lexeme}
    {ds : List Definition}, Worded rest → definitions sourceLength limit rest = .ok ds →
      ∀ d ∈ ds, d.Worded := by
  induction limit with
  | zero =>
    intro rest ds _ h
    simp only [definitions] at h
    cases h
    simp
  | succ n ih =>
    intro rest ds hrest h
    cases rest with
    | nil =>
      simp only [definitions] at h
      cases h
      simp
    | cons l rest =>
      simp only [definitions] at h
      split at h
      · cases h
        simp
      · obtain ⟨⟨first, middle⟩, hfirst, h⟩ := exists_of_bind_eq_ok h
        obtain ⟨others, hothers, h⟩ := exists_of_bind_eq_ok h
        cases h
        obtain ⟨hworded, hmiddle⟩ := definition_worded hrest hfirst
        intro d hd
        rcases List.mem_cons.mp hd with rfl | hd
        · exact hworded
        · exact ih hmiddle hothers d hd

end Reader

/-- What is read from a text is worded. -/
theorem worded_of_read {text : Text} {ds : List Definition} (h : read text = .ok ds) :
    ∀ d ∈ ds, d.Worded := by
  unfold read at h
  obtain ⟨lexemes, hscan, h⟩ := exists_of_bind_eq_ok h
  exact Reader.definitions_worded _ (Lexeme.isWorded_of_scanFrom 0 text lexemes hscan) h

end Source

end GrammarKit
