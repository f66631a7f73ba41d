import GrammarKit.Proofs.Source.Reading
import GrammarKit.Proofs.Source.Wording

/-!
Which sources can be read. Main statement: a row of lexemes is read as definitions if and only if it
is what the grammar of grammars yields from them, perhaps with a docstring behind. No other
definitions have this yield, the spans run over the lexemes, and all else is a syntax error.
-/
namespace GrammarKit

namespace Piece

variable {u : CodeUnit} {rest : Text} {piece : Piece} {kind : Lexeme.Kind} {text : Text}

def Signs (kind : Lexeme.Kind) (text : Text) : Prop := kind.isSign = true → text = kind.name

theorem take_operator {t : Text} {o : Text × Lexeme.Kind} (h : Lexeme.operator? t = some o) :
    t.take o.1.length = o.2.name := by
  have hnamed : ∀ o ∈ Lexeme.operators, o.1 = o.2.name := by decide
  have hfound := List.find?_some h
  have hfront : o.1 <+: t := List.isPrefixOf_iff_prefix.mp hfound
  rw [← List.prefix_iff_eq_take.mp hfront]
  exact hnamed o (List.mem_of_find?_eq_some h)

theorem signs_of_delimited {closing : CodeUnit} {problem : GrammarError.Problem} {t : Text}
    {opening : Lexeme.Kind} (hopening : opening.isSign = false)
    (h : delimited opening closing problem t rest = .ok piece)
    (hlexeme : piece.lexeme = some (kind, text)) : Signs kind text := by
  unfold delimited at h
  split at h
  · cases h
    cases hlexeme
    exact fun hsign => by rw [hopening] at hsign; cases hsign
  · cases h

theorem signs_of_ofUnits (h : ofUnits u rest = .ok piece)
    (hlexeme : piece.lexeme = some (kind, text)) : Signs kind text := by
  unfold ofUnits at h
  simp only at h
  split at h
  · cases h
    cases hlexeme
    exact fun hsign => by cases hsign
  · split at h
    · exact signs_of_delimited rfl h hlexeme
    · split at h
      · exact signs_of_delimited rfl h hlexeme
      · split at h
        · cases h
          cases hlexeme
          exact fun hsign => by cases hsign
        · split at h
          · next hoperator =>
            cases h
            cases hlexeme
            exact fun _ => take_operator hoperator
          · cases h

theorem signs_of_front (h : front u rest = .ok piece)
    (hlexeme : piece.lexeme = some (kind, text)) : Signs kind text := by
  unfold front at h
  split at h
  · cases h
    cases hlexeme
  · split at h
    · cases h
    · next doc body width _ =>
      cases h
      cases doc with
      | false => cases hlexeme
      | true =>
        cases hlexeme
        exact fun hsign => by cases hsign
    · exact signs_of_ofUnits h hlexeme

end Piece

namespace Source

theorem signed_of_scan {source : Text} {ls : List Lexeme} (h : Lexeme.scan source = .ok ls) :
    Signed ls := by
  intro l hl
  have hsigns := Lexeme.forall_of_scanFrom Piece.signs_of_front 0 source ls h l hl
  cases hsign : l.kind.isSign with
  | false => simp [Lexeme.isSigned, hsign]
  | true => simp [Lexeme.isSigned, hsigns hsign]

namespace Reader

def Complains {α : Type} (x : Except GrammarError α) : Prop :=
  ∀ e, x = .error e → e.kind = .syntaxError

theorem Complains.of_ok {α : Type} (a : α) : Complains (.ok a) := fun _ h => nomatch h

theorem Complains.bind {α β : Type} {x : Except GrammarError α} {f : α → Except GrammarError β}
    (hx : Complains x) (hf : ∀ a, Complains (f a)) : Complains (x >>= f) := by
  cases x with
  | error e =>
    intro e' h
    cases h
    exact hx e rfl
  | ok a => exact hf a

section Complaints

variable (ctx : Context) (named : Bool)

theorem expected_complains {α : Type} (what : Expectation) (rest : List Lexeme) :
    Complains (.error (expected ctx what rest) : Except GrammarError α) := by
  intro e h
  cases h
  unfold expected
  split
  · rfl
  · rfl

theorem demand_complains (kind : Lexeme.Kind) (what : Expectation) (rest : List Lexeme) :
    Complains (demand ctx kind what rest) := by
  unfold demand
  split
  · exact .of_ok _
  · exact expected_complains ctx what _

theorem alternativeName_complains (rest : List Lexeme) :
    Complains (alternativeName ctx named rest) := by
  unfold alternativeName
  split
  · exact .of_ok _
  · split
    · exact .bind (demand_complains ctx _ _ _) fun _ => .of_ok _
    · intro e h
      cases h
      rfl

mutual

theorem alternation_complains (ctx : Context) (named : Bool) :
    ∀ (n : Nat) (rest : List Lexeme), Complains (alternation ctx named n rest)
  | 0, rest => by
    simp only [alternation]
    exact expected_complains ctx _ rest
  | n + 1, rest => by
    simp only [alternation]
    refine .bind (alternative_complains ctx named n rest) fun (a, middle) => ?_
    simp only
    split
    · exact .of_ok _
    · exact .bind (alternation_complains ctx named n _) fun _ => .of_ok _

theorem alternative_complains (ctx : Context) (named : Bool) :
    ∀ (n : Nat) (rest : List Lexeme), Complains (alternative ctx named n rest)
  | 0, rest => by
    simp only [alternative]
    exact expected_complains ctx _ rest
  | n + 1, rest => by
    simp only [alternative]
    refine .bind (body_complains ctx n _) fun (items, middle) => ?_
    simp only
    split
    · exact expected_complains ctx _ _
    · exact .bind (alternativeName_complains ctx named _) fun _ => .of_ok _

theorem body_complains (ctx : Context) :
    ∀ (n : Nat) (rest : List Lexeme), Complains (body ctx n rest)
  | 0, rest => by
    simp only [body]
    exact expected_complains ctx _ rest
  | n + 1, [] => by
    simp only [body]
    exact .of_ok _
  | n + 1, l :: rest => by
    simp only [body]
    split
    · refine .bind (singular_complains ctx n _) fun (inner, middle) => ?_
      exact .bind (body_complains ctx n _) fun _ => .of_ok _
    · exact .of_ok _

theorem singular_complains (ctx : Context) :
    ∀ (n : Nat) (rest : List Lexeme), Complains (singular ctx n rest)
  | 0, rest => by
    simp only [singular]
    exact expected_complains ctx _ rest
  | n + 1, [] => by
    simp only [singular]
    exact expected_complains ctx _ []
  | n + 1, l :: rest => by
    simp only [singular]
    split
    · refine .bind (alternation_complains ctx false n rest) fun (alternatives, middle) => ?_
      exact .bind (demand_complains ctx _ _ _) fun _ => .of_ok _
    · exact .of_ok _
    · exact .of_ok _
    · exact .of_ok _
    · exact .of_ok _
    · exact expected_complains ctx _ _

end

theorem definitionKind_complains (rest : List Lexeme) : Complains (definitionKind ctx rest) := by
  unfold definitionKind
  split
  · exact .of_ok _
  · split
    · exact .of_ok _
    · exact expected_complains ctx _ _

theorem definition_complains (sourceLength : Nat) (rest : List Lexeme) :
    Complains (definition sourceLength rest) := by
  unfold definition
  refine .bind (demand_complains _ _ _ _) ?_
  rintro ⟨name, middle⟩
  refine .bind (definitionKind_complains _ _) ?_
  rintro ⟨kind, middle⟩
  refine .bind (alternation_complains _ _ _ _) ?_
  rintro ⟨alternatives, last⟩
  exact .bind (demand_complains _ _ _ _) fun _ => .of_ok _

theorem definitions_complains (sourceLength : Nat) :
    ∀ (limit : Nat) (rest : List Lexeme), Complains (definitions sourceLength limit rest) := by
  intro limit
  induction limit with
  | zero => exact fun rest => .of_ok _
  | succ n ih =>
    intro rest
    by_cases htrailing : Trailing rest
    · rw [definitions_of_trailing htrailing]
      exact .of_ok _
    · rw [definitions_of_not_trailing htrailing]
      refine .bind (definition_complains sourceLength rest) fun (first, after) => ?_
      exact .bind (ih after) fun _ => .of_ok _

end Complaints

end Reader

/-- Definitions in which nothing is empty and names are in their places are written as a row of
lexemes: kinds and texts are their yield, and a docstring may stand behind. -/
def Written (ds : List Definition) (ls : List Lexeme) : Prop :=
  (∀ d ∈ ds, d.isProper = true) ∧
    ∃ taken rest, ls = taken ++ rest ∧ Reader.Trailing rest ∧
      taken.map Lexeme.content = ds.flatMap Definition.yield

/-- In a row of lexemes the span of every part of the definitions runs from the start of its first
lexeme to the end of its last. -/
def Placed (ds : List Definition) (ls : List Lexeme) : Prop :=
  ∃ taken rest, ls = taken ++ rest ∧ Reader.Trailing rest ∧ Spelled ds taken

section Lexemes

variable {source : Text} {ls : List Lexeme} (hscan : Lexeme.scan source = .ok ls)
include hscan

theorem read_of_scan : read source = Reader.definitions source.length ls.length ls := by
  rw [read, hscan]
  rfl

theorem read_iff_written_placed {ds : List Definition} :
    read source = .ok ds ↔ Written ds ls ∧ Placed ds ls := by
  rw [read_of_scan hscan]
  constructor
  · intro h
    obtain ⟨hproper, taken, rest, rfl, htaken, hrest⟩ :=
      Reader.definitions_spelled (Nat.le_refl _) h
    have hyield := htaken.yield (signed_of_scan hscan).left
    exact ⟨⟨hproper, taken, rest, rfl, hrest, hyield⟩, taken, rest, rfl, hrest, htaken⟩
  · rintro ⟨⟨hproper, -⟩, taken, rest, rfl, hrest, htaken⟩
    rw [Reader.definitions_append htaken hproper rest (Nat.le_refl _),
      Reader.definitions_of_trailing hrest]
    exact congrArg Except.ok (List.append_nil ds)

theorem exists_read_of_written {ds : List Definition} (h : Written ds ls) :
    ∃ es, read source = .ok es ∧ es.map Definition.bare = ds.map Definition.bare := by
  obtain ⟨hproper, taken, rest, hls, hrest, hyield⟩ := h
  obtain ⟨es, hsame, hes, hspelled⟩ := exists_spelled hproper hyield
  have hsigned := signed_of_scan hscan
  rw [hls] at hsigned
  refine ⟨es, (read_iff_written_placed hscan).mpr ⟨⟨hes, ?_⟩, ?_⟩, hsame⟩
  · exact ⟨taken, rest, hls, hrest, hspelled.yield hsigned.left⟩
  · exact ⟨taken, rest, hls, hrest, hspelled⟩

end Lexemes

/-- The reader accepts exactly what the grammar of grammars yields. Definitions are read if they are
written in the source and their spans run over their lexemes; whatever is written is read, up to
spans; there is only one way in which a source is written; and where nothing is written, the answer
is a syntax error. -/
theorem read_exactly_written {source : Text} {ls : List Lexeme}
    (hscan : Lexeme.scan source = .ok ls) :
    (∀ ds, read source = .ok ds ↔ Written ds ls ∧ Placed ds ls) ∧
    (∀ ds, Written ds ls →
      ∃ es, read source = .ok es ∧ es.map Definition.bare = ds.map Definition.bare) ∧
    (∀ ds es, Written ds ls → Written es ls →
      ds.map Definition.bare = es.map Definition.bare) ∧
    ((∀ ds, ¬Written ds ls) → ∃ e, read source = .error e ∧ e.kind = .syntaxError) := by
  refine ⟨fun ds => read_iff_written_placed hscan, fun ds => exists_read_of_written hscan, ?_, ?_⟩
  · intro ds es hds hes
    obtain ⟨ds', hread, hds'⟩ := exists_read_of_written hscan hds
    obtain ⟨es', hread', hes'⟩ := exists_read_of_written hscan hes
    rw [hread, Except.ok.injEq] at hread'
    rw [← hds', ← hes', hread']
  · intro hnone
    cases hread : read source with
    | ok ds => exact absurd ((read_iff_written_placed hscan).mp hread).1 (hnone ds)
    | error e =>
      refine ⟨e, rfl, ?_⟩
      rw [read_of_scan hscan] at hread
      exact Reader.definitions_complains source.length ls.length ls e hread

def namedGroup : Text := Text.ofString "/** d */ a ::= ('x' | /** e */ b+) -> n | [0-9]?; /** end */"

def namedToken : Text := Text.ofString "a :== 'x' -> n;"

/-- The first source is written by one rule, and nothing is written by the second. -/
theorem read_exactly_written_names :
    (∃ ls ds, Lexeme.scan namedGroup = .ok ls ∧ read namedGroup = .ok ds ∧ ds.length = 1 ∧
      ls.length = 17 ∧ Written ds ls ∧ Placed ds ls) ∧
    ∃ ls e, Lexeme.scan namedToken = .ok ls ∧ (∀ ds, ¬Written ds ls) ∧
      read namedToken = .error e ∧ e.kind = .syntaxError := by
  constructor
  · have htest : (Lexeme.scan namedGroup).toOption.any (fun ls =>
        (read namedGroup).toOption.any fun ds => ds.length == 1 && ls.length == 17) = true := by
      decide +kernel
    obtain ⟨ls, hscan, htest⟩ := exists_of_toOption_any htest
    obtain ⟨ds, hread, htest⟩ := exists_of_toOption_any htest
    simp only [Bool.and_eq_true, beq_iff_eq] at htest
    obtain ⟨hwritten, hplaced⟩ := ((read_exactly_written hscan).1 ds).mp hread
    exact ⟨ls, ds, hscan, hread, htest.1, htest.2, hwritten, hplaced⟩
  · have htest : (Lexeme.scan namedToken).toOption.any (fun _ =>
        (read namedToken).toOption.isNone) = true := by
      decide +kernel
    obtain ⟨ls, hscan, hfails⟩ := exists_of_toOption_any htest
    have hnone : ∀ ds, ¬Written ds ls := by
      intro ds hwritten
      obtain ⟨es, hread, -⟩ := (read_exactly_written hscan).2.1 ds hwritten
      rw [hread] at hfails
      cases hfails
    obtain ⟨e, hread, hkind⟩ := (read_exactly_written hscan).2.2.2 hnone
    exact ⟨ls, e, hscan, hnone, hread, hkind⟩

end Source

end GrammarKit
