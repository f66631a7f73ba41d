import GrammarKit.Proofs.Effect
import GrammarKit.Source.Lexeme

/-!
Scanning looks past no place where a lexeme is over. A piece of a text is the same piece if more
text follows, unless it is a symbol or an escape that could go on. Main statement: a text that ends
in a semicolon, or behind one in nothing but what is skipped, can be scanned apart from what follows
it.
-/
namespace GrammarKit

namespace Escape

theorem extent_le (rest : Text) : extent rest ≤ rest.length + 1 := by
  unfold extent
  split
  · simp
  · next u r =>
    split
    · next n _ =>
      have hdigits := (List.takeWhile_sublist isDigit (l := r.take n)).length_le
      have htake := List.length_take_le' n r
      rw [List.length_cons]
      omega
    · simp

/-- An escape that ends before the text does is the same in a longer text. -/
theorem extent_append {rest : Text} (h : extent rest < rest.length + 1) (more : Text) :
    extent (rest ++ more) = extent rest := by
  unfold extent at h ⊢
  cases rest with
  | nil => simp at h
  | cons u r =>
    cases hcount : digitCount? u with
    | none => simp only [List.cons_append, hcount]
    | some n =>
      simp only [List.cons_append, hcount, List.length_cons] at h ⊢
      by_cases hn : n ≤ r.length
      · rw [List.take_append_of_le_length hn]
      · have hall : r.take n = r := List.take_of_length_le (by omega)
        rw [hall] at h
        rw [List.take_append, hall, List.takeWhile_append, if_neg (by omega)]

end Escape

namespace Lexeme

/-- A text in front of which a symbol is over, whatever follows the text. -/
def Parted (rest : Text) : Prop := rest ≠ [] ∧ rest ≠ [unit '-']

theorem symbolWidth_le (width : Nat) (t : Text) : symbolWidth width t ≤ width + t.length := by
  fun_induction symbolWidth width t with
  | case1 | case2 | case3 | case6 => simp
  | case4 width u v r _ ih => simp only [List.length_cons] at ih ⊢; omega
  | case5 width u v r _ _ ih => simp only [List.length_cons] at ih ⊢; omega

theorem symbolWidth_append {width : Nat} {t : Text}
    (h : Parted (t.drop (symbolWidth width t - width))) (more : Text) :
    symbolWidth width (t ++ more) = symbolWidth width t := by
  fun_induction symbolWidth width t with
  | case1 => simp [Parted] at h
  | case2 width u hu => simp [Parted] at h
  | case3 width u hu =>
    have hdash : u ≠ unit '-' := by simpa [Parted] using h
    cases more with
    | nil => simp [symbolWidth, hu]
    | cons v r => simp [symbolWidth, hu, hdash]
  | case4 width u v r hu ih =>
    have hle := le_symbolWidth (width + 1) (v :: r)
    have hdrop : (u :: v :: r).drop (symbolWidth (width + 1) (v :: r) - width) =
        (v :: r).drop (symbolWidth (width + 1) (v :: r) - (width + 1)) := by
      rw [show symbolWidth (width + 1) (v :: r) - width =
        symbolWidth (width + 1) (v :: r) - (width + 1) + 1 by omega, List.drop_succ_cons]
    rw [hdrop] at h
    rw [List.cons_append, List.cons_append, symbolWidth, if_pos hu]
    exact ih h
  | case5 width u v r hu hv ih =>
    have hle := le_symbolWidth (width + 2) r
    have hdrop : (u :: v :: r).drop (symbolWidth (width + 2) r - width) =
        r.drop (symbolWidth (width + 2) r - (width + 2)) := by
      rw [show symbolWidth (width + 2) r - width =
        symbolWidth (width + 2) r - (width + 2) + 1 + 1 by omega, List.drop_succ_cons,
        List.drop_succ_cons]
    rw [hdrop] at h
    rw [List.cons_append, List.cons_append, symbolWidth, if_neg hu, if_pos hv]
    exact ih h
  | case6 width u v r hu hv =>
    rw [List.cons_append, List.cons_append, symbolWidth, if_neg hu, if_neg hv]

theorem delimitedWidth_le {closing : CodeUnit} {width w : Nat} {t : Text}
    (h : delimitedWidth closing width t = some w) : w ≤ width + t.length := by
  fun_induction delimitedWidth closing width t with
  | case1 => cases h
  | case2 width r ih =>
    have hpos := Escape.extent_pos r
    have hle := Escape.extent_le r
    have hw := ih h
    rw [List.length_drop] at hw
    rw [List.length_cons]
    omega
  | case3 =>
    cases h
    simp
  | case4 => cases h
  | case5 width u r _ _ _ ih =>
    have hw := ih h
    rw [List.length_cons]
    omega

theorem delimitedWidth_append {closing : CodeUnit} {width w : Nat} {t : Text}
    (h : delimitedWidth closing width t = some w) (more : Text) :
    delimitedWidth closing width (t ++ more) = some w := by
  fun_induction delimitedWidth closing width t with
  | case1 => cases h
  | case2 width r ih =>
    have hdrop : r.drop (Escape.extent r - 1) ≠ [] := by
      intro hnil
      rw [hnil, delimitedWidth] at h
      cases h
    have hlt : Escape.extent r < r.length + 1 := by
      rw [Ne, List.drop_eq_nil_iff] at hdrop
      omega
    rw [List.cons_append, delimitedWidth, if_pos rfl, Escape.extent_append hlt,
      List.drop_append_of_le_length (by omega)]
    exact ih h
  | case3 width r hclosing =>
    rw [List.cons_append, delimitedWidth, if_neg hclosing, if_pos rfl]
    exact h
  | case4 => cases h
  | case5 width u r hsign hclosing hline ih =>
    rw [List.cons_append, delimitedWidth, if_neg hsign, if_neg hclosing, if_neg hline]
    exact ih h

theorem operator?_front {t : Text} {o : Text × Kind} (h : operator? t = some o) : o.1 <+: t := by
  have hfound := List.find?_some h
  exact List.isPrefixOf_iff_prefix.mp hfound

theorem operator?_append {t : Text} {o : Text × Kind} (h : operator? t = some o) (more : Text) :
    operator? (t ++ more) = some o := by
  have hfree : ∀ o ∈ operators, ∀ o' ∈ operators, o.1.isPrefixOf o'.1 = true → o = o' := by decide
  have hmem := List.mem_of_find?_eq_some h
  have hfront := (operator?_front h).trans (List.prefix_append t more)
  cases hlonger : operator? (t ++ more) with
  | none =>
    have hnone := List.find?_eq_none.mp hlonger o hmem
    exact absurd (List.isPrefixOf_iff_prefix.mpr hfront) hnone
  | some o' =>
    have hmem' := List.mem_of_find?_eq_some hlonger
    rcases List.prefix_or_prefix_of_prefix hfront (operator?_front hlonger) with hle | hle
    · rw [hfree o hmem o' hmem' (List.isPrefixOf_iff_prefix.mpr hle)]
    · rw [hfree o' hmem' o hmem (List.isPrefixOf_iff_prefix.mpr hle)]

end Lexeme

namespace Comment

theorem endingFrom_append {offset stars : Nat} {t : Text} {e : Ending}
    (h : endingFrom offset stars t = some e) (more : Text) :
    endingFrom offset stars (t ++ more) = some e := by
  fun_induction endingFrom offset stars t with
  | case1 => cases h
  | case2 offset stars r ih =>
    rw [List.cons_append, endingFrom, if_pos rfl]
    exact ih h
  | case3 offset stars u r hstar hslash =>
    rw [List.cons_append, endingFrom, if_neg hstar, if_pos hslash]
    exact h
  | case4 offset stars u r hstar hslash ih =>
    rw [List.cons_append, endingFrom, if_neg hstar, if_neg hslash]
    exact ih h

/-- Where a comment ends: behind a star and a slash, the star perhaps read before. -/
theorem endingFrom_bounds {offset stars : Nat} {t : Text} {e : Ending}
    (h : endingFrom offset stars t = some e) :
    e.bodyStop ≤ e.stop ∧ e.stop ≤ offset + t.length ∧
      offset + (if stars = 0 then 2 else 1) ≤ e.stop := by
  fun_induction endingFrom offset stars t with
  | case1 => cases h
  | case2 offset stars r ih =>
    obtain ⟨hbody, hstop, hleast⟩ := ih h
    rw [if_neg (Nat.succ_ne_zero stars)] at hleast
    refine ⟨hbody, by rw [List.length_cons]; omega, ?_⟩
    split <;> omega
  | case3 offset stars u r _ hslash =>
    cases h
    refine ⟨by simp only; omega, by simp only [List.length_cons]; omega, ?_⟩
    simp only
    split <;> omega
  | case4 offset stars u r _ _ ih =>
    obtain ⟨hbody, hstop, hleast⟩ := ih h
    rw [if_pos rfl] at hleast
    refine ⟨hbody, by rw [List.length_cons]; omega, ?_⟩
    split <;> omega

theorem close_append {t body : Text} {doc d : Bool} {start stop : Nat}
    (h : close doc t start = .comment d body stop) (more : Text) :
    close doc (t ++ more) start = .comment d body stop ∧ stop ≤ t.length ∧ start + 2 ≤ stop := by
  unfold close ending? at h ⊢
  rw [Int.toNat_natCast] at h ⊢
  cases hending : endingFrom start 0 (t.drop start) with
  | none =>
    rw [hending] at h
    cases h
  | some e =>
    have hstart : start ≤ t.length := by
      refine Nat.le_of_not_lt fun hlt => ?_
      rw [List.drop_eq_nil_of_le (by omega), endingFrom] at hending
      cases hending
    obtain ⟨hbody, hstop, hleast⟩ := endingFrom_bounds hending
    rw [if_pos rfl] at hleast
    rw [List.length_drop] at hstop
    rw [hending] at h
    cases h
    have hslice : (t ++ more).slice start e.bodyStop = t.slice start e.bodyStop := by
      have hplace : ∀ (t : Text) (n : Nat), t.place n = n := by
        intro t n
        rw [Text.place, if_neg (by omega), Int.toNat_natCast]
      rw [Text.slice, Text.slice, hplace, hplace, hplace, hplace,
        List.take_append_of_le_length (by omega)]
    rw [List.drop_append_of_le_length hstart, endingFrom_append hending]
    exact ⟨by simp only [hslice], by omega, hleast⟩

/-- Whether a comment is a docstring shows in its first four units. -/
theorem isDoc_append {t : Text} (h : 4 ≤ t.length) (more : Text) :
    isDoc (t ++ more) 0 = isDoc t 0 := by
  match t, h with
  | a :: b :: c :: d :: r, _ => rfl

/-- A comment that ends is the same comment in a longer text. -/
theorem front_append {t body : Text} {doc : Bool} {stop : Nat}
    (h : front t = .comment doc body stop) (more : Text) :
    front (t ++ more) = .comment doc body stop ∧ stop ≤ t.length := by
  unfold front find at h ⊢
  have hdrop : ∀ t : Text, t.drop (0 : Int).toNat = t := fun _ => rfl
  rw [hdrop] at h ⊢
  split at h
  · next hopener =>
    have hlonger : opener.isPrefixOf (t ++ more) = true := by
      rw [List.isPrefixOf_iff_prefix] at hopener ⊢
      exact hopener.trans (List.prefix_append t more)
    rw [if_pos hlonger]
    simp only [Int.zero_add] at h ⊢
    obtain ⟨hclose, hstop, hleast⟩ := close_append h more
    have hfour : 4 ≤ t.length := by
      simp only [docOpener, opener, List.length_cons, List.length_nil] at hleast
      split at hleast <;> omega
    rw [isDoc_append hfour]
    exact ⟨hclose, hstop⟩
  · cases h

/-- Nothing but a slash opens a comment. -/
theorem front_eq_none {u : CodeUnit} (h : u ≠ unit '/') (rest : Text) :
    front (u :: rest) = .none := by
  have hopener : opener.isPrefixOf (u :: rest) = false := by
    simp [opener, List.isPrefixOf, h.symm]
  unfold front find
  exact if_neg (by rw [show (u :: rest).drop (0 : Int).toNat = u :: rest from rfl, hopener]; simp)

end Comment

namespace Piece

variable {u : CodeUnit} {rest : Text} {piece : Piece}

/-- A piece that ends where it ends, whatever follows: one that is skipped, or a sign, or one that
something follows already that it cannot take. -/
def Over (piece : Piece) (rest : Text) : Prop :=
  (∀ kind text, piece.lexeme = some (kind, text) → kind ≠ .symbol ∧ kind ≠ .escape) ∨
    Lexeme.Parted (rest.drop piece.width)

/-- A piece of the same width is the same piece in a longer text. -/
theorem verbatim_append (t more : Text) {kind : Lexeme.Kind} {width width' : Nat}
    {hpos : 0 < width} {hpos' : 0 < width'} (hwidth : width' = width) (hle : width ≤ t.length) :
    verbatim kind (t ++ more) width' hpos' = verbatim kind t width hpos := by
  subst hwidth
  simp only [verbatim, List.take_append_of_le_length hle]

theorem delimited_append {kind : Lexeme.Kind} {closing : CodeUnit}
    {problem : GrammarError.Problem}
    (h : delimited kind closing problem (u :: rest) rest = .ok piece) (more : Text) :
    delimited kind closing problem (u :: rest ++ more) (rest ++ more) = .ok piece ∧
      piece.width ≤ rest.length + 1 := by
  unfold delimited at h ⊢
  split at h
  · next width hwidth =>
    cases h
    have hle : width ≤ rest.length + 1 := by
      have hle := Lexeme.delimitedWidth_le hwidth
      omega
    refine ⟨?_, hle⟩
    split
    · next width' hwidth' =>
      rw [Lexeme.delimitedWidth_append hwidth, Option.some.injEq] at hwidth'
      exact congrArg Except.ok (verbatim_append (u :: rest) more hwidth'.symm hle)
    · next hnone =>
      rw [Lexeme.delimitedWidth_append hwidth] at hnone
      cases hnone
  · cases h

/-- A slash opens a comment or nothing. -/
theorem ne_slash_of_ofUnits (h : ofUnits u rest = .ok piece) : u ≠ unit '/' := by
  rintro rfl
  have hnone : Lexeme.operator? (unit '/' :: rest) = none := by
    refine List.find?_eq_none.mpr fun o ho hfront => ?_
    have hhead : ∀ o ∈ Lexeme.operators, o.1.head?.all (· != unit '/') = true ∧ o.1 ≠ [] := by
      decide
    obtain ⟨sign, kind⟩ := o
    cases sign with
    | nil => exact (hhead _ ho).2 rfl
    | cons v r =>
      have hne := (hhead _ ho).1
      have heq : v = unit '/' := by
        simp only [List.isPrefixOf, Bool.and_eq_true, beq_iff_eq] at hfront
        exact hfront.1
      subst heq
      cases hne
  unfold ofUnits at h
  simp only at h
  rw [if_neg (by decide), if_neg (by decide), if_neg (by decide), if_neg (by decide)] at h
  split at h
  · next hsome =>
    rw [hnone] at hsome
    cases hsome
  · cases h

theorem ofUnits_append (h : ofUnits u rest = .ok piece) (hover : piece.Over (u :: rest))
    (more : Text) :
    ofUnits u (rest ++ more) = .ok piece ∧ piece.width ≤ rest.length + 1 := by
  unfold ofUnits at h ⊢
  simp only [← List.cons_append] at h ⊢
  split at h
  · next hstart =>
    rw [if_pos hstart]
    cases h
    have hle : Lexeme.symbolWidth 1 rest ≤ rest.length + 1 := by
      have hle := Lexeme.symbolWidth_le 1 rest
      omega
    have hparted : Lexeme.Parted (rest.drop (Lexeme.symbolWidth 1 rest - 1)) := by
      rcases hover with hkind | hparted
      · exact absurd rfl (hkind _ _ rfl).1
      · have hpos := Lexeme.le_symbolWidth 1 rest
        obtain ⟨n, hn⟩ : ∃ n, Lexeme.symbolWidth 1 rest = n + 1 :=
          ⟨_, (Nat.sub_add_cancel hpos).symm⟩
        simp only [verbatim, hn, List.drop_succ_cons] at hparted
        rwa [hn, Nat.add_sub_cancel]
    have hsame := Lexeme.symbolWidth_append hparted more
    exact ⟨congrArg Except.ok (verbatim_append (u :: rest) more hsame hle), hle⟩
  · next hstart =>
    rw [if_neg hstart]
    split at h
    · next hquote =>
      rw [if_pos hquote]
      exact delimited_append h more
    · next hquote =>
      rw [if_neg hquote]
      split at h
      · next hbracket =>
        rw [if_pos hbracket]
        exact delimited_append h more
      · next hbracket =>
        rw [if_neg hbracket]
        split at h
        · next hsign =>
          rw [if_pos hsign]
          cases h
          have hlt : Escape.extent rest < rest.length + 1 := by
            rcases hover with hkind | hparted
            · exact absurd rfl (hkind _ _ rfl).2
            · have hne := hparted.1
              rw [Ne, List.drop_eq_nil_iff] at hne
              simpa [verbatim] using hne
          have hsame := Escape.extent_append hlt more
          exact ⟨congrArg Except.ok (verbatim_append (u :: rest) more hsame (Nat.le_of_lt hlt)),
            Nat.le_of_lt hlt⟩
        · next hsign =>
          rw [if_neg hsign]
          split at h
          · next sign kind hoperator =>
            cases h
            have hle := (Lexeme.operator?_front hoperator).length_le
            refine ⟨?_, hle⟩
            split
            · next sign' kind' hlonger =>
              rw [Lexeme.operator?_append hoperator, Option.some.injEq, Prod.mk.injEq] at hlonger
              obtain ⟨rfl, rfl⟩ := hlonger
              exact congrArg Except.ok (verbatim_append (u :: rest) more rfl hle)
            · next hnone =>
              rw [Lexeme.operator?_append hoperator] at hnone
              cases hnone
          · cases h

/-- A piece that is over is the same piece in a longer text. -/
theorem front_append (h : front u rest = .ok piece) (hover : piece.Over (u :: rest))
    (more : Text) : front u (rest ++ more) = .ok piece ∧ piece.width ≤ rest.length + 1 := by
  unfold front at h ⊢
  split at h
  · next hblank =>
    rw [if_pos hblank]
    cases h
    exact ⟨rfl, Nat.le_add_left 1 _⟩
  · next hblank =>
    rw [if_neg hblank]
    split at h
    · cases h
    · next doc body width hcomment =>
      cases h
      obtain ⟨hlonger, hle⟩ := Comment.front_append hcomment more
      refine ⟨?_, hle⟩
      split
      · next hother =>
        rw [← List.cons_append, hlonger] at hother
        cases hother
      · next hother =>
        rw [← List.cons_append, hlonger] at hother
        cases hother
        rfl
      · next hother =>
        rw [← List.cons_append, hlonger] at hother
        cases hother
    · obtain ⟨hlonger, hle⟩ := ofUnits_append h hover more
      refine ⟨?_, hle⟩
      have hnone := Comment.front_eq_none (ne_slash_of_ofUnits h) (rest ++ more)
      split
      · next hother =>
        rw [hnone] at hother
        cases hother
      · next hother =>
        rw [hnone] at hother
        cases hother
      · exact hlonger

end Piece

namespace Lexeme

def EndsRule (ls : List Lexeme) : Prop := ∀ l ∈ ls.getLast?, l.kind = .semicolon

theorem EndsRule.of_cons {l : Lexeme} {ls : List Lexeme} (h : EndsRule (l :: ls)) :
    EndsRule ls := by
  intro l' hl'
  refine h l' ?_
  rw [List.getLast?_cons, Option.mem_def.mp hl']
  rfl

theorem parted_of_scanFrom {offset : Nat} {t : Text} {ls : List Lexeme}
    (h : scanFrom offset t = .ok ls) (hne : ls ≠ []) : Parted t := by
  constructor
  · rintro rfl
    rw [scanFrom] at h
    cases h
    exact hne rfl
  · rintro rfl
    have hfront : ∃ refusal, Piece.front (unit '-') [] = .error refusal := by
      exact ⟨_, by rfl⟩
    obtain ⟨refusal, hfront⟩ := hfront
    rw [scanFrom, hfront] at h
    cases h

/-- A text whose last lexeme is a semicolon can be scanned apart from what follows. -/
theorem scanFrom_append (offset : Nat) (t more : Text) {ls : List Lexeme}
    (h : scanFrom offset t = .ok ls) (hends : EndsRule ls) :
    scanFrom offset (t ++ more) = (scanFrom (offset + t.length) more).map (ls ++ ·) := by
  fun_induction scanFrom offset t generalizing ls with
  | case1 offset =>
    cases h
    rw [List.nil_append, List.length_nil, Nat.add_zero]
    cases scanFrom offset more <;> rfl
  | case2 => cases h
  | case3 offset u rest piece hfront ih =>
    obtain ⟨others, hothers, hlexeme⟩ := exists_of_bind_eq_ok h
    have hover : piece.Over (u :: rest) := by
      cases others with
      | nil =>
        refine Or.inl fun kind text hpiece => ?_
        rw [hpiece] at hlexeme
        cases hlexeme
        have hkind : kind = .semicolon := hends _ rfl
        exact ⟨by rw [hkind]; nofun, by rw [hkind]; nofun⟩
      | cons l others => exact Or.inr (parted_of_scanFrom hothers (List.cons_ne_nil _ _))
    obtain ⟨hlonger, hwidth⟩ := Piece.front_append hfront hover more
    have hdrop : (u :: (rest ++ more)).drop piece.width =
        (u :: rest).drop piece.width ++ more := by
      rw [← List.cons_append, List.drop_append_of_le_length hwidth]
    have hplace : offset + piece.width + ((u :: rest).drop piece.width).length =
        offset + (u :: rest).length := by
      rw [List.length_drop, List.length_cons]
      omega
    have hrest : EndsRule others := by
      cases hpiece : piece.lexeme with
      | none =>
        rw [hpiece] at hlexeme
        cases hlexeme
        exact hends
      | some content =>
        rw [hpiece] at hlexeme
        cases hlexeme
        exact hends.of_cons
    have hscan := ih hothers hrest
    rw [hplace] at hscan
    rw [List.cons_append, scanFrom, hlonger]
    simp only [hdrop, hscan]
    cases hpiece : piece.lexeme with
    | none =>
      rw [hpiece] at hlexeme
      cases hlexeme
      cases scanFrom (offset + (u :: rest).length) more <;> rfl
    | some content =>
      rw [hpiece] at hlexeme
      cases hlexeme
      cases scanFrom (offset + (u :: rest).length) more <;> rfl

end Lexeme

end GrammarKit
