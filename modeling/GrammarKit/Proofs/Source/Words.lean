import GrammarKit.Proofs.Source.Seam
import Mathlib.Order.Bounds.Basic

/-!
The words of grammar source: what a lexeme of each kind looks like, and what stands between lexemes.
The words are described by their form alone. Main statements: what is read at the front of a text is
such a word, and where nothing can be read no such word stands.
-/
namespace GrammarKit

namespace Escape

/-- An escape sequence in front of a text. It covers the sign and the next unit, and behind a letter
that takes digits as many digits as follow, up to their number. The sign stands alone only where the
text ends. -/
inductive Covers : Text → Text → Prop where
  | lone : Covers [sign] []
  | simple {u : CodeUnit} {rest : Text} (hu : digitCount? u = none) : Covers [sign, u] rest
  | numeric {u : CodeUnit} {n : Nat} {digits rest : Text} (hu : digitCount? u = some n)
      (hdigits : ∀ d ∈ digits, isDigit d = true) (hle : digits.length ≤ n)
      (hmost : digits.length = n ∨ ∀ d ∈ rest.head?, isDigit d = false) :
      Covers (sign :: u :: digits) rest

/-- What follows the next unit does not matter. -/
theorem Covers.append_iff {e rest : Text} (hne : rest ≠ []) (more : Text) :
    Covers e (rest ++ more) ↔ Covers e rest := by
  have hhead : (rest ++ more).head? = rest.head? := by
    cases rest with
    | nil => exact absurd rfl hne
    | cons d r => rfl
  constructor
  · intro h
    generalize hlonger : rest ++ more = longer at h
    cases h with
    | lone => exact absurd (List.append_eq_nil_iff.mp hlonger).1 hne
    | simple hu => exact .simple hu
    | numeric hu hdigits hle hmost => exact .numeric hu hdigits hle (by rwa [← hhead, hlonger])
  · intro h
    cases h with
    | lone => exact absurd rfl hne
    | simple hu => exact .simple hu
    | numeric hu hdigits hle hmost => exact .numeric hu hdigits hle (by rwa [hhead])

/-- The width that is passed over is that of the sequence. -/
theorem Covers.extent_eq {e rest : Text} (h : Covers e rest) :
    ∃ tail, e = sign :: tail ∧ extent (tail ++ rest) = e.length := by
  cases h with
  | lone => exact ⟨[], rfl, rfl⟩
  | @simple u _ hu => exact ⟨[u], rfl, by simp [extent, hu]⟩
  | @numeric u n digits _ hu hdigits hle hmost =>
    refine ⟨u :: digits, rfl, ?_⟩
    have htaken : ((digits ++ rest).take n).takeWhile isDigit = digits := by
      rw [List.take_append, List.take_of_length_le hle, List.takeWhile_append_of_pos hdigits]
      rcases hmost with hn | hstop
      · simp [hn]
      · cases rest with
        | nil => simp
        | cons d r =>
          have hd : isDigit d = false := hstop d rfl
          cases n - digits.length with
          | zero => simp
          | succ k => simp [List.take_succ_cons, hd]
    simp only [extent, List.cons_append, hu, htaken, List.length_cons]
    omega

/-- What is passed over is a sequence. -/
theorem exists_covers (r : Text) :
    ∃ e rest, sign :: r = e ++ rest ∧ Covers e rest ∧ e.length = extent r := by
  cases r with
  | nil => exact ⟨[sign], [], rfl, .lone, rfl⟩
  | cons u r =>
    cases hu : digitCount? u with
    | none => exact ⟨[sign, u], r, rfl, .simple hu, by simp [extent, hu]⟩
    | some n =>
      have hsplit : (r.take n).takeWhile isDigit ++ ((r.take n).dropWhile isDigit ++ r.drop n) =
          r := by
        rw [← List.append_assoc, List.takeWhile_append_dropWhile, List.take_append_drop]
      refine ⟨sign :: u :: (r.take n).takeWhile isDigit, (r.take n).dropWhile isDigit ++ r.drop n,
        by rw [List.cons_append, List.cons_append, hsplit],
        .numeric hu (fun d hd => List.all_eq_true.mp List.all_takeWhile d hd) ?_ ?_, ?_⟩
      · have hdigits := (List.takeWhile_sublist isDigit (l := r.take n)).length_le
        have htake := List.length_take_le n r
        omega
      · cases hdrop : (r.take n).dropWhile isDigit with
        | cons d others =>
          refine Or.inr fun d' hd' => ?_
          cases hd'
          have hhead := List.head?_dropWhile_not isDigit (r.take n)
          rw [hdrop] at hhead
          simpa using hhead
        | nil =>
          have hall : (r.take n).takeWhile isDigit = r.take n := by
            have hboth := List.takeWhile_append_dropWhile (p := isDigit) (l := r.take n)
            rwa [hdrop, List.append_nil] at hboth
          rw [hall, List.length_take]
          by_cases hn : n ≤ r.length
          · exact Or.inl (Nat.min_eq_left hn)
          · rw [List.drop_eq_nil_of_le (by omega)]
            refine Or.inr fun d hd => ?_
            cases hd
      · simp only [extent, hu, List.length_cons]
        omega

end Escape

namespace Lexeme

inductive SymbolTail : Text → Prop where
  | nil : SymbolTail []
  | unit {u : CodeUnit} {r : Text} (hu : continuesSymbol u = true) (h : SymbolTail r) :
      SymbolTail (u :: r)
  | dashed {u : CodeUnit} {r : Text} (hu : continuesSymbol u = true) (h : SymbolTail r) :
      SymbolTail (GrammarKit.unit '-' :: u :: r)

def IsSymbol (w : Text) : Prop := ∃ u r, w = u :: r ∧ startsSymbol u = true ∧ SymbolTail r

/-- The units that are taken continue a symbol. -/
theorem symbolTail_take (width : Nat) (t : Text) :
    SymbolTail (t.take (symbolWidth width t - width)) := by
  fun_induction symbolWidth width t with
  | case1 => simpa using SymbolTail.nil
  | case2 width u hu => simpa using SymbolTail.unit hu .nil
  | case3 width u hu => simpa using SymbolTail.nil
  | case4 width u v r hu ih =>
    have hle := le_symbolWidth (width + 1) (v :: r)
    rw [show symbolWidth (width + 1) (v :: r) - width =
      symbolWidth (width + 1) (v :: r) - (width + 1) + 1 by omega]
    exact .unit hu ih
  | case5 width u v r hu hv ih =>
    have hle := le_symbolWidth (width + 2) r
    rw [show symbolWidth (width + 2) r - width = symbolWidth (width + 2) r - (width + 2) + 1 + 1 by
      omega, hv.1]
    exact .dashed hv.2 ih
  | case6 width u v r hu hv => simpa using SymbolTail.nil

theorem symbolWidth_unit {u : CodeUnit} (hu : continuesSymbol u = true) (width : Nat) (t : Text) :
    symbolWidth width (u :: t) = symbolWidth (width + 1) t := by
  cases t with
  | nil => simp [symbolWidth, hu]
  | cons v r => simp [symbolWidth, hu]

theorem symbolWidth_dashed {u : CodeUnit} (hu : continuesSymbol u = true) (width : Nat)
    (t : Text) : symbolWidth width (unit '-' :: u :: t) = symbolWidth (width + 2) t := by
  have hdash : continuesSymbol (unit '-') = false := by decide
  simp [symbolWidth, hu, hdash]

/-- No more units continue a symbol than are taken. -/
theorem SymbolTail.length_le {w : Text} (hw : SymbolTail w) :
    ∀ (width : Nat) {t : Text}, w <+: t → width + w.length ≤ symbolWidth width t := by
  induction hw with
  | nil => exact fun width t _ => le_symbolWidth width t
  | @unit u r hu _ ih =>
    rintro width _ ⟨more, rfl⟩
    have hrest := ih (width + 1) (List.prefix_append r more)
    rw [List.cons_append, symbolWidth_unit hu, List.length_cons]
    omega
  | @dashed u r hu _ ih =>
    rintro width _ ⟨more, rfl⟩
    have hrest := ih (width + 2) (List.prefix_append r more)
    rw [List.cons_append, List.cons_append, symbolWidth_dashed hu, List.length_cons,
      List.length_cons]
    omega

/-- What follows the opening mark of a string or set: units and escapes up to the first closing mark
that no escape covers. A line feed stands in a set only. -/
inductive Enclosed (closing : CodeUnit) : Text → Prop where
  | close : Enclosed closing [closing]
  | unit {u : CodeUnit} {r : Text} (hsign : u ≠ Escape.sign) (hclosing : u ≠ closing)
      (hline : u = GrammarKit.unit '\n' → closing = GrammarKit.unit ']')
      (h : Enclosed closing r) : Enclosed closing (u :: r)
  | escape {e r : Text} (he : Escape.Covers e r) (h : Enclosed closing r) :
      Enclosed closing (e ++ r)

theorem Enclosed.ne_nil {closing : CodeUnit} {w : Text} (h : Enclosed closing w) : w ≠ [] := by
  induction h with
  | close => exact List.cons_ne_nil _ _
  | unit => exact List.cons_ne_nil _ _
  | escape _ _ ih => exact fun hnil => ih (List.append_eq_nil_iff.mp hnil).2

/-- What is read up to a closing mark is enclosed. -/
theorem enclosed_of_delimitedWidth {closing : CodeUnit} {width w : Nat} {t : Text}
    (h : delimitedWidth closing width t = some w) :
    ∃ e more, t = e ++ more ∧ Enclosed closing e ∧ w = width + e.length := by
  fun_induction delimitedWidth closing width t with
  | case1 => cases h
  | case2 width r ih =>
    obtain ⟨e, rest, hsplit, hcovers, hlength⟩ := Escape.exists_covers r
    obtain ⟨tail, rfl, -⟩ := hcovers.extent_eq
    have hrest : r.drop (Escape.extent r - 1) = rest := by
      rw [← hlength, List.length_cons, Nat.add_sub_cancel, (List.cons.inj hsplit).2]
      exact List.drop_left
    obtain ⟨body, more, hbody, henclosed, hw⟩ := ih h
    rw [hrest] at hbody
    subst hbody
    refine ⟨Escape.sign :: tail ++ body, more, ?_, .escape ?_ henclosed, ?_⟩
    · rw [hsplit, List.append_assoc]
    · exact (Escape.Covers.append_iff henclosed.ne_nil more).mp hcovers
    · rw [hw, ← hlength, List.length_append]
      omega
  | case3 width r =>
    cases h
    exact ⟨[closing], r, rfl, .close, rfl⟩
  | case4 => cases h
  | case5 width u r hsign hclosing hline ih =>
    obtain ⟨body, more, rfl, henclosed, hw⟩ := ih h
    refine ⟨u :: body, more, rfl, .unit hsign hclosing ?_ henclosed, ?_⟩
    · intro hu
      by_contra hset
      exact hline ⟨hu, hset⟩
    · rw [hw, List.length_cons]
      omega

/-- What is enclosed is read up to its closing mark. -/
theorem Enclosed.delimitedWidth_eq {closing : CodeUnit} (hclosing : closing ≠ Escape.sign)
    {e : Text} (h : Enclosed closing e) :
    ∀ (width : Nat) (more : Text),
      delimitedWidth closing width (e ++ more) = some (width + e.length) := by
  induction h with
  | close =>
    intro width more
    rw [List.singleton_append, delimitedWidth, if_neg hclosing, if_pos rfl]
    rfl
  | @unit u r hsign hne hline h ih =>
    intro width more
    have hset : ¬ (u = GrammarKit.unit '\n' ∧ closing ≠ GrammarKit.unit ']') :=
      fun hboth => hboth.2 (hline hboth.1)
    rw [List.cons_append, delimitedWidth, if_neg hsign, if_neg hne, if_neg hset, ih,
      List.length_cons]
    exact congrArg some (by omega)
  | @escape e r he h ih =>
    intro width more
    obtain ⟨tail, rfl, hextent⟩ :=
      ((Escape.Covers.append_iff h.ne_nil more).mpr he).extent_eq
    rw [List.append_assoc, List.cons_append, delimitedWidth, if_pos rfl, hextent]
    have hdrop : (tail ++ (r ++ more)).drop ((Escape.sign :: tail).length - 1) = r ++ more := by
      simp
    rw [hdrop, ih, List.length_append]
    exact congrArg some (by omega)

end Lexeme

namespace Comment

def closer : Text := [unit '*', unit '/']

def ClosesAt (t : Text) (k : Nat) : Prop := closer <+: t.drop k

theorem closesAt_iff {t : Text} {k : Nat} :
    ClosesAt t k ↔ ∃ before after, t = before ++ closer ++ after ∧ before.length = k := by
  constructor
  · intro hcloses
    obtain ⟨after, hafter⟩ := hcloses
    refine ⟨t.take k, after, ?_, ?_⟩
    · rw [List.append_assoc, hafter, List.take_append_drop]
    · have hlength := congrArg List.length hafter
      rw [List.length_append, List.length_drop] at hlength
      simp only [closer, List.length_cons, List.length_nil] at hlength
      rw [List.length_take]
      omega
  · intro hsplit
    obtain ⟨before, after, rfl, rfl⟩ := hsplit
    rw [ClosesAt, List.append_assoc, List.drop_left]
    exact List.prefix_append closer after

/-- Between the stars of a run no comment ends. -/
theorem not_closesAt_stars {stars k : Nat} (h : k + 1 < stars) (t : Text) :
    ¬ ClosesAt (List.replicate stars (unit '*') ++ t) k := by
  obtain ⟨m, hm⟩ : ∃ m, stars - k = m + 1 + 1 := ⟨stars - k - 2, by omega⟩
  have hlength : k ≤ (List.replicate stars (unit '*')).length := by
    rw [List.length_replicate]
    omega
  have hne : unit '/' ≠ unit '*' := by decide
  rw [ClosesAt, List.drop_append_of_le_length hlength, List.drop_replicate, hm,
    List.replicate_succ, List.replicate_succ]
  simp [closer, hne]

/-- Where a run of stars is followed by something else than a slash, a comment can end behind that
only. -/
theorem closesAt_stars {stars k : Nat} {u : CodeUnit} {r : Text} (hstar : u ≠ unit '*')
    (hslash : ¬ (u = unit '/' ∧ 0 < stars)) :
    ClosesAt (List.replicate stars (unit '*') ++ u :: r) k ↔
      ∃ j, k = stars + 1 + j ∧ ClosesAt r j := by
  have hbehind : ∀ j, ClosesAt (List.replicate stars (unit '*') ++ u :: r) (stars + j) ↔
      ClosesAt (u :: r) j := by
    intro j
    rw [ClosesAt, ClosesAt, List.drop_append, List.drop_eq_nil_of_le (by simp)]
    simp
  constructor
  · intro h
    rcases Nat.lt_trichotomy k stars with hlt | rfl | hlt
    · by_cases hlast : k + 1 < stars
      · exact absurd h (not_closesAt_stars hlast _)
      · obtain rfl : stars = k + 1 := by omega
        rw [ClosesAt, List.drop_append_of_le_length (by simp), List.drop_replicate,
          Nat.add_sub_cancel_left, List.replicate_one] at h
        simp only [closer, List.cons_append, List.nil_append, List.cons_prefix_cons] at h
        exact absurd ⟨h.2.1.symm, Nat.succ_pos k⟩ hslash
    · have hfront := (hbehind 0).mp h
      simp [ClosesAt, closer, hstar.symm] at hfront
    · obtain ⟨j, rfl⟩ : ∃ j, k = stars + 1 + j := ⟨k - stars - 1, by omega⟩
      rw [Nat.add_assoc, hbehind, Nat.add_comm] at h
      exact ⟨j, rfl, h⟩
  · intro hrest
    obtain ⟨j, rfl, h⟩ := hrest
    rw [Nat.add_assoc, hbehind, Nat.add_comm]
    exact h

/-- Without an end there is no place for one. -/
theorem not_closesAt_of_endingFrom {offset stars : Nat} {t : Text}
    (h : endingFrom offset stars t = none) (k : Nat) :
    ¬ ClosesAt (List.replicate stars (unit '*') ++ t) k := by
  fun_induction endingFrom offset stars t generalizing k with
  | case1 offset stars =>
    intro hcloses
    obtain ⟨before, after, hsplit, -⟩ := closesAt_iff.mp hcloses
    have hslash : unit '/' ∈ List.replicate stars (unit '*') ++ [] := by
      rw [hsplit]
      simp [closer]
    rw [List.append_nil, List.mem_replicate] at hslash
    exact absurd hslash.2 (by decide)
  | case2 offset stars r ih =>
    have hrun := ih h k
    rwa [List.replicate_succ', List.append_assoc] at hrun
  | case3 => cases h
  | case4 offset stars u r hstar hslash ih =>
    intro hcloses
    obtain ⟨j, -, hrest⟩ := (closesAt_stars hstar hslash).mp hcloses
    exact ih h j hrest

/-- A comment ends at the first place where it can. -/
theorem isLeast_of_endingFrom {offset stars : Nat} {t : Text} {e : Ending}
    (h : endingFrom offset stars t = some e) :
    ∃ k, IsLeast {k | ClosesAt (List.replicate stars (unit '*') ++ t) k} k ∧
      e.stop + stars = offset + k + 2 := by
  fun_induction endingFrom offset stars t with
  | case1 => cases h
  | case2 offset stars r ih =>
    obtain ⟨k, hleast, hstop⟩ := ih h
    rw [List.replicate_succ', List.append_assoc] at hleast
    exact ⟨k, hleast, by omega⟩
  | case3 offset stars u r _ hslash =>
    cases h
    obtain ⟨m, rfl⟩ : ∃ m, stars = m + 1 := ⟨stars - 1, by omega⟩
    refine ⟨m, ⟨?_, ?_⟩, by simp only; omega⟩
    · show closer <+: _
      rw [List.drop_append_of_le_length (by simp), List.drop_replicate, Nat.add_sub_cancel_left,
        List.replicate_one, hslash.1]
      exact List.prefix_append closer r
    · intro k hcloses
      by_contra hlt
      exact not_closesAt_stars (by omega) _ hcloses
  | case4 offset stars u r hstar hslash ih =>
    obtain ⟨k, ⟨hcloses, hbound⟩, hstop⟩ := ih h
    refine ⟨stars + 1 + k, ⟨?_, ?_⟩, by omega⟩
    · exact (closesAt_stars hstar hslash).mpr ⟨k, rfl, hcloses⟩
    · intro k' hcloses'
      obtain ⟨j, rfl, hrest⟩ := (closesAt_stars hstar hslash).mp hcloses'
      have hle := hbound hrest
      omega

/-- A complete comment: from its opener to the first place where it can end. -/
def IsComplete (c : Text) : Prop :=
  ∃ body, c = opener ++ body ++ closer ∧ ∀ k < body.length, ¬ ClosesAt (body ++ closer) k

/-- A docstring opens with two stars, and it is more than a comment without a body. -/
def IsDocstring (c : Text) : Prop := IsComplete c ∧ docOpener <+: c ∧ c ≠ opener ++ closer

theorem isDoc_opener {r : Text} : isDoc (opener ++ r) 0 = true ↔
    ∃ r', r = unit '*' :: r' ∧ r'.head? ≠ some (unit '/') := by
  cases r with
  | nil => simp [isDoc, opener, docOpener]
  | cons u r =>
    have hdoc : isDoc (opener ++ u :: r) 0 =
        (unit '*' == u && r.head? != some (unit '/')) := by
      simp [isDoc, opener, docOpener, Text.ahead, List.isPrefixOf]
    rw [hdoc, Bool.and_eq_true, beq_iff_eq, bne_iff_ne]
    constructor
    · intro hunits
      obtain ⟨rfl, hhead⟩ := hunits
      exact ⟨r, rfl, hhead⟩
    · intro hunits
      obtain ⟨r', hr, hhead⟩ := hunits
      cases hr
      exact ⟨rfl, hhead⟩

theorem close_eq (doc : Bool) {t r : Text} {start : Nat} (h : t.drop start = r) :
    (close doc t start = .unterminated ∧ ∀ k, ¬ ClosesAt r k) ∨
      ∃ k body, IsLeast {k | ClosesAt r k} k ∧
        close doc t start = .comment doc body (start + k + 2) := by
  unfold close ending?
  rw [Int.toNat_natCast, h]
  cases hending : endingFrom start 0 r with
  | none => exact Or.inl ⟨rfl, not_closesAt_of_endingFrom hending⟩
  | some e =>
    obtain ⟨k, hleast, hstop⟩ := isLeast_of_endingFrom hending
    refine Or.inr ⟨k, t.slice start e.bodyStop, hleast, ?_⟩
    simp only [← hstop, Nat.add_zero]

/-- The comment that an opener opens ends at the first place where it can. -/
theorem front_opener (r : Text) :
    (front (opener ++ r) = .unterminated ∧ ∀ k, ¬ ClosesAt r k) ∨
      ∃ k body, IsLeast {k | ClosesAt r k} k ∧
        front (opener ++ r) = .comment (isDoc (opener ++ r) 0) body (k + 4) := by
  have hfront : front (opener ++ r) = close (isDoc (opener ++ r) 0) (opener ++ r)
      ((if isDoc (opener ++ r) 0 then 3 else 2 : Nat) : Int) := by
    have hopener : opener.isPrefixOf ((opener ++ r).drop (0 : Int).toNat) = true :=
      List.isPrefixOf_iff_prefix.mpr (List.prefix_append opener r)
    unfold front find
    rw [if_pos hopener]
    simp only [Int.zero_add]
    rfl
  rw [hfront]
  by_cases hdoc : isDoc (opener ++ r) 0 = true
  · obtain ⟨r', rfl, hhead⟩ := isDoc_opener.mp hdoc
    rw [if_pos hdoc]
    have hfirst : ¬ ClosesAt (unit '*' :: r') 0 := by
      intro hcloses
      obtain ⟨after, hafter⟩ := hcloses
      cases hafter
      exact hhead rfl
    have hdrop : (opener ++ unit '*' :: r').drop 3 = r' := rfl
    rcases close_eq (isDoc (opener ++ unit '*' :: r') 0) hdrop with
      ⟨hclose, hnone⟩ | ⟨k, body, hleast, hclose⟩
    · refine Or.inl ⟨hclose, fun k => ?_⟩
      cases k with
      | zero => exact hfirst
      | succ k => exact hnone k
    · refine Or.inr ⟨k + 1, body, ⟨hleast.1, ?_⟩, ?_⟩
      · intro k' hcloses
        cases k' with
        | zero => exact absurd hcloses hfirst
        | succ k' => exact Nat.succ_le_succ (hleast.2 hcloses)
      · rw [hclose]
        congr 1
        omega
  · rw [if_neg hdoc]
    have hdrop : (opener ++ r).drop 2 = r := rfl
    rcases close_eq (isDoc (opener ++ r) 0) hdrop with hclose | ⟨k, body, hleast, hclose⟩
    · exact Or.inl hclose
    · refine Or.inr ⟨k, body, hleast, ?_⟩
      rw [hclose]
      congr 1
      omega

theorem eq_opener_of_front {t : Text} (h : front t ≠ .none) : ∃ r, t = opener ++ r := by
  by_contra hopener
  refine h ?_
  unfold front find
  refine if_neg fun hprefix => hopener ?_
  obtain ⟨r, hr⟩ := List.isPrefixOf_iff_prefix.mp hprefix
  exact ⟨r, hr.symm⟩

/-- What is read as a comment is a complete one, and what is read as a docstring is one. -/
theorem isComplete_of_front {t body : Text} {doc : Bool} {stop : Nat}
    (h : front t = .comment doc body stop) :
    ∃ c more, t = c ++ more ∧ c.length = stop ∧ IsComplete c ∧ (doc = true ↔ IsDocstring c) := by
  obtain ⟨r, rfl⟩ := eq_opener_of_front (t := t) (by rw [h]; nofun)
  rcases front_opener r with ⟨hunterminated, -⟩ | ⟨k, body', ⟨hcloses, hbound⟩, hcomment⟩
  · rw [h] at hunterminated
    cases hunterminated
  · rw [h] at hcomment
    cases hcomment
    obtain ⟨before, after, rfl, rfl⟩ := closesAt_iff.mp hcloses
    have hcomplete : IsComplete (opener ++ before ++ closer) := by
      refine ⟨before, rfl, fun k hk hearlier => ?_⟩
      obtain ⟨b, a, hsplit, rfl⟩ := closesAt_iff.mp hearlier
      have hle : before.length ≤ b.length := hbound (closesAt_iff.mpr
        ⟨b, a ++ after, by rw [hsplit, List.append_assoc, List.append_assoc], rfl⟩)
      omega
    refine ⟨opener ++ before ++ closer, after, by simp only [List.append_assoc], ?_, hcomplete, ?_⟩
    · simp only [List.length_append, opener, closer, List.length_cons, List.length_nil]
      omega
    · rw [isDoc_opener]
      cases before with
      | nil =>
        refine iff_of_false ?_ fun hdoc => hdoc.2.2 rfl
        intro hunits
        obtain ⟨r', hr, hhead⟩ := hunits
        cases hr
        exact hhead rfl
      | cons u b =>
        constructor
        · intro hunits
          obtain ⟨r', hr, -⟩ := hunits
          cases hr
          refine ⟨hcomplete, ⟨b ++ closer, rfl⟩, fun heq => ?_⟩
          have hlength := congrArg List.length heq
          simp [opener, closer] at hlength
        · intro hdoc
          obtain ⟨-, ⟨b', hb'⟩, -⟩ := hdoc
          cases hb'
          refine ⟨b ++ closer ++ after, rfl, fun hhead => ?_⟩
          obtain ⟨behind, hbehind⟩ := List.head?_eq_some_iff.mp hhead
          have hfirst : ClosesAt (unit '*' :: b ++ closer ++ after) 0 := by
            rw [List.cons_append, List.cons_append, hbehind]
            exact ⟨behind, rfl⟩
          exact absurd (hbound hfirst) (Nat.not_succ_le_zero _)

/-- A complete comment is read. -/
theorem exists_front_of_isComplete {c : Text} (h : IsComplete c) (more : Text) :
    ∃ doc body stop, front (c ++ more) = .comment doc body stop := by
  obtain ⟨body, rfl, -⟩ := h
  rw [List.append_assoc, List.append_assoc]
  rcases front_opener (body ++ (closer ++ more)) with ⟨-, hnone⟩ | ⟨k, body', -, hcomment⟩
  · exact absurd (closesAt_iff.mpr ⟨body, more, by rw [List.append_assoc], rfl⟩) (hnone _)
  · exact ⟨_, _, _, hcomment⟩

end Comment

namespace Lexeme

inductive Worded : Kind → Text → Text → Prop where
  /-- A symbol is the longest one that stands there. -/
  | symbol {w rest : Text} (h : IsSymbol w)
      (hmost : ∀ w', IsSymbol w' → w' <+: w ++ rest → w'.length ≤ w.length) :
      Worded .symbol w rest
  | string {quote : CodeUnit} {w rest : Text} (hquote : quote = unit '"' ∨ quote = unit '\'')
      (h : Enclosed quote w) : Worded .string (quote :: w) rest
  | charset {w rest : Text} (h : Enclosed (unit ']') w) : Worded .charset (unit '[' :: w) rest
  | escape {e rest : Text} (h : Escape.Covers e rest) : Worded .escape e rest
  | doc {c rest : Text} (h : Comment.IsDocstring c) : Worded .doc c rest
  | operator {sign : Text} {kind : Kind} {rest : Text} (h : (sign, kind) ∈ operators) :
      Worded kind sign rest

inductive Skippable : Text → Prop where
  | blank {u : CodeUnit} (h : isBlank u = true) : Skippable [u]
  | comment {c : Text} (h : Comment.IsComplete c) (hplain : ¬ Comment.IsDocstring c) : Skippable c

end Lexeme

namespace Piece

variable {u : CodeUnit} {rest : Text} {piece : Piece}

open Lexeme

/-- What a piece in front of a text says that stands there. -/
def Tells (piece : Piece) (w more : Text) : Prop :=
  match piece.lexeme with
  | none => Skippable w
  | some (kind, text) => Worded kind w more ∧ (kind ≠ .doc → text = w)

/-- A word that is taken as it stands. -/
theorem tells_verbatim {kind : Kind} {t w more : Text} {width : Nat} {hpos : 0 < width}
    (hsplit : t = w ++ more) (hwidth : w.length = width) (h : Worded kind w more) :
    ∃ w more, t = w ++ more ∧ w.length = (verbatim kind t width hpos).width ∧
      (verbatim kind t width hpos).Tells w more := by
  refine ⟨w, more, hsplit, hwidth, h, fun _ => ?_⟩
  rw [hsplit, ← hwidth]
  exact List.take_left

theorem tells_of_delimited {kind : Kind} {closing : CodeUnit} {problem : GrammarError.Problem}
    (h : delimited kind closing problem (u :: rest) rest = .ok piece)
    (hworded : ∀ w more, Enclosed closing w → Worded kind (u :: w) more) :
    ∃ w more, u :: rest = w ++ more ∧ w.length = piece.width ∧ piece.Tells w more := by
  unfold delimited at h
  split at h
  · next width hwidth =>
    cases h
    obtain ⟨e, more, rfl, henclosed, rfl⟩ := enclosed_of_delimitedWidth hwidth
    exact tells_verbatim (w := u :: e) rfl (by rw [List.length_cons, Nat.add_comm])
      (hworded e more henclosed)
  · cases h

/-- The symbol that is taken is the longest one. -/
theorem worded_symbol (hstart : startsSymbol u = true) (rest : Text) :
    Worded .symbol (u :: rest.take (symbolWidth 1 rest - 1))
      (rest.drop (symbolWidth 1 rest - 1)) := by
  refine .symbol ⟨u, _, rfl, hstart, symbolTail_take 1 rest⟩ ?_
  rintro _ ⟨v, r, rfl, -, htail⟩ hprefix
  rw [List.cons_append, List.take_append_drop, List.cons_prefix_cons] at hprefix
  have hle := htail.length_le 1 hprefix.2
  have hrest := hprefix.2.length_le
  rw [List.length_cons, List.length_cons, List.length_take]
  omega

theorem tells_of_ofUnits (h : ofUnits u rest = .ok piece) :
    ∃ w more, u :: rest = w ++ more ∧ w.length = piece.width ∧ piece.Tells w more := by
  unfold ofUnits at h
  simp only at h
  split at h
  · next hstart =>
    cases h
    refine tells_verbatim ?_ ?_ (worded_symbol hstart rest)
    · rw [List.cons_append, List.take_append_drop]
    · have hpos := le_symbolWidth 1 rest
      have hle := symbolWidth_le 1 rest
      rw [List.length_cons, List.length_take]
      omega
  · split at h
    · next hquote => exact tells_of_delimited h fun w more henclosed => .string hquote henclosed
    · split at h
      · next hbracket =>
        subst hbracket
        exact tells_of_delimited h fun w more henclosed => .charset henclosed
      · split at h
        · next hsign =>
          subst hsign
          cases h
          obtain ⟨e, more, hsplit, hcovers, hlength⟩ := Escape.exists_covers rest
          exact tells_verbatim hsplit hlength (.escape hcovers)
        · split at h
          · next sign kind hoperator =>
            cases h
            obtain ⟨more, hmore⟩ := operator?_front hoperator
            exact tells_verbatim hmore.symm rfl
              (.operator (List.mem_of_find?_eq_some hoperator))
          · cases h

/-- A piece tells what stands in front of a text. -/
theorem tells_of_front (h : front u rest = .ok piece) :
    ∃ w more, u :: rest = w ++ more ∧ w.length = piece.width ∧ piece.Tells w more := by
  unfold front at h
  split at h
  · next hblank =>
    cases h
    exact ⟨[u], rest, rfl, rfl, Skippable.blank hblank⟩
  · split at h
    · cases h
    · next doc body width hcomment =>
      cases h
      obtain ⟨c, more, hsplit, hlength, hcomplete, hdoc⟩ := Comment.isComplete_of_front hcomment
      refine ⟨c, more, hsplit, hlength, ?_⟩
      cases doc with
      | true => exact ⟨.doc (hdoc.mp rfl), fun hne => absurd rfl hne⟩
      | false =>
        refine Skippable.comment hcomplete fun hdocstring => ?_
        cases hdoc.mpr hdocstring
    · exact tells_of_ofUnits h

/-- Where no comment and no blank stands, the first unit decides. -/
theorem front_eq_ofUnits (hblank : isBlank u = false) (hslash : u ≠ unit '/') (rest : Text) :
    front u rest = ofUnits u rest := by
  have hnone := Comment.front_eq_none hslash rest
  unfold front
  rw [if_neg (by simp [hblank])]
  split
  · next hother =>
    rw [hnone] at hother
    cases hother
  · next hother =>
    rw [hnone] at hother
    cases hother
  · rfl

theorem exists_front_of_isComplete {c more : Text} (hc : Comment.IsComplete c)
    (hsplit : u :: rest = c ++ more) : ∃ piece, front u rest = .ok piece := by
  obtain ⟨doc, body, stop, hcomment⟩ := Comment.exists_front_of_isComplete hc more
  rw [← hsplit] at hcomment
  unfold front
  split
  · exact ⟨_, rfl⟩
  · split
    · next hother =>
      rw [hcomment] at hother
      cases hother
    · exact ⟨_, rfl⟩
    · next hother =>
      rw [hcomment] at hother
      cases hother

/-- What is enclosed is read as a string or set. -/
theorem exists_delimited {kind : Kind} {closing : CodeUnit} (hclosing : closing ≠ Escape.sign)
    {w : Text} (h : Enclosed closing w) (problem : GrammarError.Problem) (t more : Text) :
    ∃ piece, delimited kind closing problem t (w ++ more) = .ok piece := by
  have hwidth := h.delimitedWidth_eq hclosing 1 more
  unfold delimited
  split
  · exact ⟨_, rfl⟩
  · next hnone =>
    rw [hwidth] at hnone
    cases hnone

theorem not_isBlank_of_startsSymbol (h : startsSymbol u = true) :
    isBlank u = false ∧ u ≠ unit '/' := by
  constructor
  · by_contra hblank
    simp only [isBlank, Bool.not_eq_false, Bool.or_eq_true, beq_iff_eq] at hblank
    rcases hblank with ((rfl | rfl) | rfl) | rfl <;> exact absurd h (by decide)
  · rintro rfl
    exact absurd h (by decide)

/-- An operator is read as one, since it starts with no unit that something else starts with. -/
theorem exists_front_of_operator {sign : Text} {kind : Kind} {more : Text}
    (h : (sign, kind) ∈ operators) (hsplit : u :: rest = sign ++ more) :
    ∃ piece, front u rest = .ok piece := by
  have hheads : ∀ o ∈ operators, o.1 ≠ [] ∧ o.1.head?.all (fun v => !isBlank v && v != unit '/' &&
      !startsSymbol v && v != unit '"' && v != unit '\'' && v != unit '[' && v != Escape.sign) =
        true := by
    decide
  obtain ⟨hne, hhead⟩ := hheads _ h
  obtain ⟨r, rfl⟩ : ∃ r, sign = u :: r := by
    cases sign with
    | nil => exact absurd rfl hne
    | cons v r =>
      cases hsplit
      exact ⟨r, rfl⟩
  simp only [List.head?_cons, Option.all_some, Bool.and_eq_true, Bool.not_eq_true', bne_iff_ne]
    at hhead
  obtain ⟨⟨⟨⟨⟨⟨hblank, hslash⟩, hstart⟩, hdouble⟩, hsingle⟩, hbracket⟩, hsign⟩ := hhead
  rw [front_eq_ofUnits hblank hslash]
  unfold ofUnits
  simp only [hstart, hdouble, hsingle, hbracket, hsign, Bool.false_eq_true, or_self, if_false]
  split
  · exact ⟨_, rfl⟩
  · next hnone =>
    rw [hsplit] at hnone
    have hno := List.find?_eq_none.mp hnone _ h
    exact absurd (List.isPrefixOf_iff_prefix.mpr (List.prefix_append (u :: r) more)) hno

/-- Where a word stands, a piece is read. -/
theorem exists_front_of_worded {kind : Kind} {w more : Text} (h : Worded kind w more)
    (hsplit : u :: rest = w ++ more) : ∃ piece, front u rest = .ok piece := by
  cases h with
  | symbol h =>
    obtain ⟨v, r, rfl, hstart, -⟩ := h
    cases hsplit
    obtain ⟨hblank, hslash⟩ := not_isBlank_of_startsSymbol hstart
    rw [front_eq_ofUnits hblank hslash, ofUnits, if_pos hstart]
    exact ⟨_, rfl⟩
  | string hquote h =>
    cases hsplit
    rcases hquote with rfl | rfl
    · rw [front_eq_ofUnits (by decide) (by decide)]
      exact exists_delimited (by decide) h _ _ more
    · rw [front_eq_ofUnits (by decide) (by decide)]
      exact exists_delimited (by decide) h _ _ more
  | charset h =>
    cases hsplit
    rw [front_eq_ofUnits (by decide) (by decide)]
    exact exists_delimited (by decide) h _ _ more
  | escape h =>
    obtain ⟨tail, rfl, -⟩ := h.extent_eq
    cases hsplit
    rw [front_eq_ofUnits (by decide) (by decide)]
    exact ⟨_, rfl⟩
  | doc h => exact exists_front_of_isComplete h.1 hsplit
  | operator h => exact exists_front_of_operator h hsplit

/-- Where something to skip stands, a piece is read. -/
theorem exists_front_of_skippable {w more : Text} (h : Skippable w)
    (hsplit : u :: rest = w ++ more) : ∃ piece, front u rest = .ok piece := by
  cases h with
  | blank hblank =>
    cases hsplit
    unfold front
    rw [if_pos hblank]
    exact ⟨_, rfl⟩
  | comment hcomplete _ => exact exists_front_of_isComplete hcomplete hsplit

end Piece

end GrammarKit
