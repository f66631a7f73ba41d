import GrammarKit.Proofs.Source.Comments
import GrammarKit.Proofs.Text.Lines
import Mathlib.Data.List.DropRight

/-!
Docstrings in their standard layout: an opener on a line of its own, each line of the text behind a
gutter, and the end of the comment on the last line. Main statement: what is laid out so is read
back line by line, with the indentation, the blank lines and the marks that belong to the text.
-/
namespace GrammarKit

namespace Text

/-- What does not contain a separator lies on one side of it. -/
theorem isInfix_of_append_cons {w a b : Text} {separator : CodeUnit} (hw : separator ∉ w)
    (h : w <:+: a ++ separator :: b) : w <:+: a ∨ w <:+: b := by
  obtain ⟨before, after, heq⟩ := h
  rw [List.append_assoc] at heq
  rcases List.append_eq_append_iff.mp heq with ⟨c, rfl, hc⟩ | ⟨c, rfl, hc⟩
  · rcases List.append_eq_append_iff.mp hc with ⟨d, rfl, -⟩ | ⟨d, rfl, hd⟩
    · exact Or.inl ⟨before, d, List.append_assoc _ _ _⟩
    · cases d with
      | nil => exact Or.inl ⟨before, [], by simp⟩
      | cons v d =>
        cases hd
        exact absurd (List.mem_append_right c List.mem_cons_self) hw
  · cases c with
    | nil =>
      cases w with
      | nil => exact Or.inl List.nil_infix
      | cons v w =>
        cases hc
        exact absurd List.mem_cons_self hw
    | cons v c =>
      cases hc
      exact Or.inr ⟨c, after, List.append_assoc _ _ _⟩

theorem trimRight_eq_self {t : Text} (h : ∀ u ∈ t.getLast?, isBlank u = false) :
    trimRight t = t := by
  refine List.rdropWhile_eq_self_iff.mpr fun hne => ?_
  rw [h _ (List.getLast?_eq_some_getLast hne)]
  exact Bool.false_ne_true

end Text

namespace Comment

section Body

variable {t body more : Text} {start : Nat}

/-- Behind a body that has no terminator in it stands the first one. -/
theorem isLeast_closer (h : t.drop start = body ++ closer ++ more) (hbody : ¬ closer <:+: body) :
    IsLeast {k | start ≤ k ∧ ClosesAt t k} (start + body.length) := by
  constructor
  · refine ⟨Nat.le_add_right _ _, ?_⟩
    rw [← closesAt_drop, h]
    exact closesAt_iff.mpr ⟨body, more, rfl, rfl⟩
  · rintro k ⟨hk, hcloses⟩
    obtain ⟨i, rfl⟩ := Nat.exists_eq_add_of_le hk
    rw [← closesAt_drop, h] at hcloses
    obtain ⟨before, after, hsplit, rfl⟩ := closesAt_iff.mp hcloses
    rw [List.append_assoc, List.append_assoc] at hsplit
    rcases List.append_eq_append_iff.mp hsplit with ⟨c, rfl, -⟩ | ⟨c, rfl, hc⟩
    · simp
    · match c, hc with
      | [], _ => simp
      | [u], hc => cases hc
      | u :: v :: c, hc =>
        cases hc
        exact absurd ⟨before, c, by simp [closer]⟩ hbody

/-- Such a body is the body of a comment, if it does not end with a star. -/
theorem ending?_of_body (h : t.drop start = body ++ closer ++ more) (hbody : ¬ closer <:+: body)
    (hlast : body.getLast? ≠ some (unit '*')) :
    ending? t start = some ⟨start + body.length, start + body.length + 2⟩ := by
  have hunit : ∀ i, t[start + i]? = (body ++ closer ++ more)[i]? := by
    intro i
    rw [← h, List.getElem?_drop]
  refine ending?_eq_some_iff.mpr
    ⟨start + body.length, isLeast_closer h hbody, rfl, ⟨Nat.le_add_right _ _, ?_⟩, ?_⟩
  · intro i hfirst hi
    obtain rfl := Nat.le_antisymm hi hfirst
    rw [hunit]
    simp [closer]
  · rintro b ⟨hb, hstarred⟩
    refine Nat.le_of_not_lt fun (hlt : b < start + body.length) => ?_
    have hunit' := hunit (body.length - 1)
    rw [hstarred (start + (body.length - 1)) (by omega) (by omega), List.append_assoc,
      List.getElem?_append_left (by omega), ← List.getLast?_eq_getElem?] at hunit'
    exact hlast hunit'.symm

end Body

def gutter : Text := [unit ' ', unit '*', unit ' ']

def layout (lines : List Text) : Text :=
  lines.flatMap (fun line => gutter ++ line ++ [unit '\n']) ++ [unit ' ']

def docstring (lines : List Text) : Text :=
  docOpener ++ (unit '\n' :: layout lines) ++ closer

/-- A line that can stand in a docstring: it does not break the line or end the comment, and there
is no white space at its end. -/
structure IsDocLine (line : Text) : Prop where
  one_line : unit '\n' ∉ line
  stays_open : ¬ closer <:+: line
  trimmed : ∀ u ∈ line.getLast?, Text.isBlank u = false

theorem isDocLine_iff {line : Text} :
    IsDocLine line ↔ unit '\n' ∉ line ∧ ¬ closer <:+: line ∧
      line.getLast?.all (fun u => !Text.isBlank u) = true := by
  simp only [Option.all_eq_true, Bool.not_eq_true']
  exact ⟨fun h => ⟨h.one_line, h.stays_open, h.trimmed⟩, fun h => ⟨h.1, h.2.1, h.2.2⟩⟩

instance (line : Text) : Decidable (IsDocLine line) := decidable_of_iff' _ isDocLine_iff

theorem layout_cons (line : Text) (lines : List Text) :
    layout (line :: lines) = (gutter ++ line) ++ unit '\n' :: layout lines := by
  simp [layout]

section Lines

variable {line : Text} {lines : List Text}

theorem not_isInfix_gutter (h : ¬ closer <:+: line) : ¬ closer <:+: gutter ++ line := by
  intro hinfix
  change closer <:+: [unit ' ', unit '*'] ++ unit ' ' :: line at hinfix
  rcases Text.isInfix_of_append_cons (by decide) hinfix with hleft | hright
  · exact absurd hleft (by decide)
  · exact h hright

theorem not_isInfix_layout (h : ∀ line ∈ lines, IsDocLine line) : ¬ closer <:+: layout lines := by
  induction lines with
  | nil => decide
  | cons line lines ih =>
    intro hinfix
    rw [layout_cons] at hinfix
    rcases Text.isInfix_of_append_cons (by decide) hinfix with hleft | hright
    · exact not_isInfix_gutter (h line List.mem_cons_self).stays_open hleft
    · exact ih (fun l hl => h l (List.mem_cons_of_mem _ hl)) hright

theorem lines_layout (h : ∀ line ∈ lines, IsDocLine line) :
    (layout lines).lines = lines.map (gutter ++ ·) ++ [[unit ' ']] := by
  induction lines with
  | nil => decide
  | cons line lines ih =>
    have hline : unit '\n' ∉ gutter ++ line := by
      rw [List.mem_append, not_or]
      exact ⟨by decide, (h line List.mem_cons_self).one_line⟩
    have hmore := ih fun l hl => h l (List.mem_cons_of_mem _ hl)
    rw [layout_cons, Text.lines_append_lineFeed hline, hmore]
    rfl

theorem trimLeft_gutter (line : Text) :
    Text.trimLeft (gutter ++ line) = unit '*' :: unit ' ' :: line := rfl

theorem hasGutter_layout (lines : List Text) :
    hasGutter (lines.map (gutter ++ ·) ++ [[unit ' ']]) = true := by
  rw [hasGutter, Bool.and_eq_true]
  refine ⟨by simp, List.all_eq_true.mpr fun l hl => ?_⟩
  rcases List.mem_append.mp hl with hl | hl
  · obtain ⟨line, -, rfl⟩ := List.mem_map.mp hl
    rw [trimLeft_gutter]
    rfl
  · rw [List.mem_singleton.mp hl]
    rfl

/-- Of a line behind its gutter only the line remains. -/
theorem stripMargin_gutter (line : Text) : stripMargin true (gutter ++ line) = line := rfl

theorem dropBlankEdges_framed (hfirst : lines.head? ≠ some []) (hlast : lines.getLast? ≠ some []) :
    dropBlankEdges ([] :: (lines ++ [[]])) = lines := by
  cases lines with
  | nil => rfl
  | cons first rest =>
    have hsome : ¬ first.isEmpty = true := by simpa using hfirst
    have hdrop : ([] :: (first :: rest ++ [[]])).dropWhile List.isEmpty =
        first :: rest ++ [[]] := by
      rw [List.dropWhile_cons_of_pos rfl, List.cons_append, List.dropWhile_cons_of_neg hsome]
    rw [dropBlankEdges, hdrop]
    refine (List.rdropWhile_concat_pos _ _ _ rfl).trans ?_
    refine List.rdropWhile_eq_self_iff.mpr fun hne hblank => hlast ?_
    rw [List.getLast?_eq_some_getLast hne, List.isEmpty_iff.mp hblank]

/-- The text of a docstring in the standard layout is its lines. -/
theorem clean_layout (hdoc : ∀ line ∈ lines, IsDocLine line) (hfirst : lines.head? ≠ some [])
    (hlast : lines.getLast? ≠ some []) :
    clean (unit '\n' :: layout lines) = Text.join [unit '\n'] lines := by
  have hlines : Text.lines (unit '\n' :: layout lines) =
      [] :: (lines.map (gutter ++ ·) ++ [[unit ' ']]) := by
    rw [← lines_layout hdoc]
    exact @Text.lines_append_lineFeed [] List.not_mem_nil (layout lines)
  have hstrip : (lines.map (gutter ++ ·) ++ [[unit ' ']]).map
      (fun line => Text.trimRight (stripMargin true line)) = lines ++ [[]] := by
    rw [List.map_append, List.map_map]
    congr 1
    refine List.map_congr_left (g := id) ?_ |>.trans (List.map_id _)
    intro line hline
    rw [Function.comp_apply, stripMargin_gutter]
    exact Text.trimRight_eq_self (hdoc line hline).trimmed
  rw [clean, hlines]
  simp only [hasGutter_layout, hstrip]
  exact congrArg (Text.join _) (dropBlankEdges_framed hfirst hlast)

/-- A docstring in the standard layout is found whole. -/
theorem front_docstring (hdoc : ∀ line ∈ lines, IsDocLine line) :
    front (docstring lines) =
      .comment true (unit '\n' :: layout lines) (docstring lines).length := by
  have hbody : ¬ closer <:+: unit '\n' :: layout lines := by
    intro hinfix
    rcases Text.isInfix_of_append_cons (a := []) (by decide) hinfix with hleft | hright
    · exact absurd hleft (by decide)
    · exact not_isInfix_layout hdoc hright
  have hlast : (unit '\n' :: layout lines).getLast? ≠ some (unit '*') := by
    rw [layout, ← List.cons_append, List.getLast?_concat]
    decide
  have hdrop : (docstring lines).drop 3 = (unit '\n' :: layout lines) ++ closer ++ [] := by
    rw [List.append_nil]
    rfl
  have hending := ending?_of_body hdrop hbody hlast
  have hfront : front (docstring lines) = close true (docstring lines) (3 : Nat) := rfl
  have hslice := (Text.slice_of_drop (hdrop.trans (List.append_assoc _ _ _))).1
  have hlength : 3 + (unit '\n' :: layout lines).length + 2 = (docstring lines).length := by
    simp [docstring, docOpener, closer]
    omega
  rw [hfront, close, Int.toNat_natCast, hending]
  simp only [hslice, hlength]

end Lines

/-- The piece that a docstring in the standard layout is. -/
theorem exists_piece_docstring {lines : List Text} {rest : Text}
    (hrest : docstring lines = unit '/' :: rest) (hdoc : ∀ line ∈ lines, IsDocLine line)
    (hfirst : lines.head? ≠ some []) (hlast : lines.getLast? ≠ some []) :
    ∃ piece, Piece.front (unit '/') rest = .ok piece ∧
      piece.lexeme = some (.doc, Text.join [unit '\n'] lines) ∧
      piece.width = (docstring lines).length := by
  have hcomment := front_docstring hdoc
  rw [hrest] at hcomment
  unfold Piece.front
  rw [if_neg (by decide)]
  split
  · next hother =>
    rw [hcomment] at hother
    cases hother
  · next doc body width hother =>
    rw [hcomment] at hother
    cases hother
    exact ⟨_, rfl, by rw [if_pos rfl, clean_layout hdoc hfirst hlast], by rw [hrest]⟩
  · next hother =>
    rw [hcomment] at hother
    cases hother

/-- A docstring in the standard layout is read back verbatim: it is the only lexeme of its text, it
spans all of it, and what it says are the lines that were laid out. -/
theorem scan_docstring {lines : List Text} (hdoc : ∀ line ∈ lines, IsDocLine line)
    (hfirst : lines.head? ≠ some []) (hlast : lines.getLast? ≠ some []) :
    Lexeme.scan (docstring lines) =
      .ok [⟨.doc, Text.join [unit '\n'] lines, ⟨0, (docstring lines).length⟩⟩] := by
  obtain ⟨rest, hrest⟩ : ∃ rest, docstring lines = unit '/' :: rest := ⟨_, rfl⟩
  obtain ⟨piece, hfront, hlexeme, hwidth⟩ := exists_piece_docstring hrest hdoc hfirst hlast
  rw [hrest] at hwidth ⊢
  exact Lexeme.scan_of_front hfront hlexeme hwidth

def markedLines : List Text :=
  [Text.ofString "/ * a", [], Text.ofString "   * b *", Text.ofString "*", Text.ofString "/"]

theorem scan_docstring_marked :
    (∀ line ∈ markedLines, IsDocLine line) ∧
    docstring markedLines =
      Text.ofString "/**\n * / * a\n * \n *    * b *\n * *\n * /\n */" ∧
    Lexeme.scan (docstring markedLines) =
      .ok [⟨.doc, Text.ofString "/ * a\n\n   * b *\n*\n/", ⟨0, 42⟩⟩] := by
  have hdoc : ∀ line ∈ markedLines, IsDocLine line := by decide +kernel
  have hjoin : Text.join [unit '\n'] markedLines = Text.ofString "/ * a\n\n   * b *\n*\n/" := by
    decide +kernel
  have hlength : (docstring markedLines).length = 42 := by decide +kernel
  refine ⟨hdoc, by decide +kernel, ?_⟩
  rw [scan_docstring hdoc (by decide +kernel) (by decide +kernel), hjoin, hlength]
  rfl

end Comment

end GrammarKit
