import GrammarKit.Text.Location
import Mathlib.Algebra.Ring.Nat

/-!
The lines of a text and the offsets in them. Main statement: every offset up to the end of a text
stands in one of its lines, and the line and column that are given for it count to that place.
-/
namespace GrammarKit.Text

theorem lines_append_lineFeed {line : Text} (h : unit '\n' ∉ line) (t : Text) :
    (line ++ unit '\n' :: t).lines = line :: t.lines :=
  List.splitOn_append_cons_self_of_not_mem h t

theorem lines_of_not_mem {line : Text} (h : unit '\n' ∉ line) : line.lines = [line] :=
  List.splitOn_eq_singleton h

/-- Units without a line feed start the first line. -/
theorem exists_lines_append {p : Text} (h : unit '\n' ∉ p) (t : Text) :
    ∃ line more, (p ++ t).lines = (p ++ line) :: more := by
  induction t generalizing p with
  | nil => exact ⟨[], [], by rw [List.append_nil, lines_of_not_mem h]⟩
  | cons u r ih =>
    by_cases hu : u = unit '\n'
    · exact ⟨[], Text.lines r, by rw [hu, lines_append_lineFeed h, List.append_nil]⟩
    · obtain ⟨line, more, hlines⟩ := ih (p := p ++ [u]) (by simp [h, Ne.symm hu])
      exact ⟨u :: line, more, by simpa using hlines⟩

def lineStart (t : Text) (row : Nat) : Nat :=
  ((t.lines.take row).map fun line => line.length + 1).sum

/-- An offset stands in a row of the text, at a column of the line there. Both count from 0. -/
structure StandsAt (t : Text) (offset row column : Nat) (line : Text) : Prop where
  line_eq : t.lines[row]? = some line
  column_le : column ≤ line.length
  offset_eq : t.lineStart row + column = offset

theorem lineStart_append_lineFeed {p : Text} (h : unit '\n' ∉ p) (t : Text) (row : Nat) :
    (p ++ unit '\n' :: t).lineStart (row + 1) = p.length + 1 + t.lineStart row := by
  rw [lineStart, lines_append_lineFeed h, List.take_succ_cons, List.map_cons, List.sum_cons]
  rfl

theorem StandsAt.append_lineFeed {p t line : Text} {offset row column : Nat}
    (hp : unit '\n' ∉ p) (h : StandsAt t offset row column line) :
    StandsAt (p ++ unit '\n' :: t) (p.length + 1 + offset) (row + 1) column line where
  line_eq := by rw [lines_append_lineFeed hp, List.getElem?_cons_succ, h.line_eq]
  column_le := h.column_le
  offset_eq := by rw [lineStart_append_lineFeed hp, Nat.add_assoc, h.offset_eq]

/-- Reading on in a line of which the units `p` are read. -/
theorem exists_standsAt_of_locateFrom {line start here count : Nat} {p t : Text}
    (hp : unit '\n' ∉ p) (hhere : here = start + p.length) (hcount : count ≤ t.length) :
    ∃ row column found, StandsAt (p ++ t) (p.length + count) row column found ∧
      locateFrom line start here count t = (line + row, start + (p ++ t).lineStart row) := by
  fun_induction locateFrom line start here count t generalizing p with
  | case1 line start here t =>
    obtain ⟨rest, more, hlines⟩ := exists_lines_append hp t
    refine ⟨0, p.length, p ++ rest, ⟨by rw [hlines]; rfl, ?_, Nat.zero_add _⟩, rfl⟩
    rw [List.length_append]
    exact Nat.le_add_right _ _
  | case2 line start here count hpos => exact absurd (Nat.le_zero.mp hcount) hpos
  | case3 line start here count r ih =>
    obtain ⟨row, column, found, hstands, hlocate⟩ :=
      ih (p := []) List.not_mem_nil rfl (Nat.le_of_succ_le_succ hcount)
    have hoffset : p.length + 1 + (0 + count) = p.length + (count + 1) := by omega
    refine ⟨row + 1, column, found, hoffset ▸ hstands.append_lineFeed hp, ?_⟩
    rw [hlocate, lineStart_append_lineFeed hp, hhere, List.nil_append]
    ext <;> simp only <;> omega
  | case4 line start here count u r hu ih =>
    obtain ⟨row, column, found, hstands, hlocate⟩ :=
      ih (p := p ++ [u]) (by simp [hp, Ne.symm hu]) (by simp; omega)
        (Nat.le_of_succ_le_succ hcount)
    have hoffset : (p ++ [u]).length + count = p.length + (count + 1) := by simp; omega
    rw [hoffset, List.append_assoc, List.singleton_append] at hstands
    rw [List.append_assoc, List.singleton_append] at hlocate
    exact ⟨row, column, found, hstands, hlocate⟩

/-- The line and column given for an offset are the ones it stands at, counted from 1. -/
theorem exists_standsAt {t : Text} {offset : Nat} (h : offset ≤ t.length) :
    ∃ row column line, StandsAt t offset row column line ∧
      t.locate offset = ⟨row + 1, column + 1⟩ := by
  obtain ⟨row, column, line, hstands, hlocate⟩ :=
    @exists_standsAt_of_locateFrom 1 0 0 offset [] t List.not_mem_nil rfl h
  rw [List.nil_append, List.length_nil, Nat.zero_add] at hstands
  have hoffset := hstands.offset_eq
  rw [List.nil_append] at hlocate
  refine ⟨row, column, line, hstands, ?_⟩
  simp only [locate, Int.toNat_natCast, hlocate, Location.mk.injEq]
  omega

theorem ofInt_natCast (n : Nat) : ofInt n = ofNat n := by
  rw [ofInt, ofIntBase, if_neg (Int.not_lt.mpr (Int.natCast_nonneg n))]
  rfl

def placeName (row column : Nat) : Text := ofNat (row + 1) ++ unit ':' :: ofNat (column + 1)

def lineLabel (row : Nat) : Text := ofNat (row + 1) ++ ofString ": "

section Shown

variable {t : Text} {row column : Nat} {offset : Int}

theorem describeOffset_of_locate (h : t.locate offset = ⟨row + 1, column + 1⟩) :
    describeOffset (some t) offset = placeName row column := by
  rw [describeOffset, h]
  exact congrArg (_ ++ unit ':' :: ·) (ofInt_natCast (column + 1))

/-- The line is shown behind its number, and the caret is put under the column. -/
theorem excerpt_of_locate {line : Text} (h : t.locate offset = ⟨row + 1, column + 1⟩)
    (hline : t.lines[row]? = some line) :
    t.excerpt offset = [lineLabel row ++ line,
      List.replicate ((lineLabel row).length + column) (unit '-') ++ [unit '^']] := by
  have hcaret : ofString "^" = [unit '^'] := by decide
  have hwidth : ((lineLabel row).length + ((column : Int) + 1)).toNat =
      (lineLabel row).length + column + 1 := by omega
  rw [excerpt, h]
  simp only [Nat.add_sub_cancel, hline, Option.getD_some, padLeft, hcaret]
  rw [← lineLabel, hwidth]
  rfl

end Shown

end GrammarKit.Text
