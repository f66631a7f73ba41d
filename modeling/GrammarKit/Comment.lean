import GrammarKit.Text.Blank

/-!
Block comments and docstrings. A comment ends at the first star that a slash follows; the stars
right before that slash belong to the end and not to the body. A docstring opens with two stars,
and its text is what remains when the margin of its lines is taken off.
-/
namespace GrammarKit.Comment

structure Ending where
  bodyStop : Nat
  stop : Nat
deriving DecidableEq

/-- Reads from `offset`, right after `stars` stars in a row. -/
def endingFrom (offset stars : Nat) : Text → Option Ending
  | [] => none
  | u :: r =>
    if u = unit '*' then endingFrom (offset + 1) (stars + 1) r
    else if u = unit '/' ∧ 0 < stars then some ⟨offset - stars, offset + 1⟩
    else endingFrom (offset + 1) 0 r

def ending? (t : Text) (start : Nat) : Option Ending := endingFrom start 0 (t.drop start)

inductive Found where
  | none
  | unterminated
  | comment (doc : Bool) (body : Text) (stop : Nat)
deriving DecidableEq

def opener : Text := [unit '/', unit '*']

def docOpener : Text := [unit '/', unit '*', unit '*']

/-- Whether the comment at an offset is a docstring. Two stars open one unless a slash is next. -/
def isDoc (t : Text) (offset : Int) : Bool :=
  docOpener.isPrefixOf (t.drop offset.toNat) &&
    (t.ahead (offset + docOpener.length)).head? != some (unit '/')

def close (doc : Bool) (t : Text) (start : Int) : Found :=
  match ending? t start.toNat with
  | some e => .comment doc (t.slice start e.bodyStop) e.stop
  | Option.none => .unterminated

/-- The comment at an offset. From before the text its opener is looked for where the text starts,
while its body is still counted from the offset. -/
def find (t : Text) (offset : Int) : Found :=
  if opener.isPrefixOf (t.drop offset.toNat) then
    let doc := isDoc t offset
    close doc t (offset + if doc then docOpener.length else opener.length)
  else .none

def front (t : Text) : Found := find t 0

theorem lt_stop_of_endingFrom {offset stars : Nat} {t : Text} {e : Ending}
    (h : endingFrom offset stars t = some e) : offset < e.stop := by
  fun_induction endingFrom offset stars t with
  | case1 => cases h
  | case2 offset stars r ih => have := ih h; omega
  | case3 => simp only [Option.some.injEq] at h; subst h; simp
  | case4 offset stars u r _ _ ih => have := ih h; omega

theorem stop_pos_of_close {doc d : Bool} {start : Int} {stop : Nat} {t body : Text}
    (h : close doc t start = .comment d body stop) : 0 < stop := by
  unfold close at h
  split at h
  · next e he =>
    simp only [Found.comment.injEq] at h
    have := lt_stop_of_endingFrom he
    omega
  · cases h

theorem front_stop_pos {t body : Text} {doc : Bool} {stop : Nat}
    (h : front t = .comment doc body stop) : 0 < stop := by
  unfold front find at h
  split at h
  · exact stop_pos_of_close h
  · cases h

/-- Takes a margin off: blanks, and after them a star and a blank if there is a gutter. -/
def stripMargin (gutter : Bool) (line : Text) : Text :=
  let t := Text.trimLeft line
  if gutter then
    match t with
    | u :: r =>
      if u = unit '*' then
        match r with
        | v :: r' => if v = unit ' ' then r' else v :: r'
        | [] => []
      else t
    | [] => []
  else t

def hasGutter (lines : List Text) : Bool :=
  !lines.isEmpty && lines.all fun line =>
    match Text.trimLeft line with
    | [] => true
    | u :: _ => u = unit '*'

def dropBlankEdges (lines : List Text) : List Text :=
  (((lines.dropWhile List.isEmpty).reverse).dropWhile List.isEmpty).reverse

/-- The text of a docstring. The first line follows the opener and has no gutter. -/
def clean (body : Text) : Text :=
  match body.lines with
  | [] => []
  | first :: rest =>
    let gutter := hasGutter rest
    let lines := Text.trimRight (stripMargin false first) ::
      rest.map fun line => Text.trimRight (stripMargin gutter line)
    Text.join [unit '\n'] (dropBlankEdges lines)

end GrammarKit.Comment
