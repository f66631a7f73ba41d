import GrammarKit.Proofs.Source.Words
import GrammarKit.Proofs.Tokenizer.Course
import Mathlib.Data.List.Forall2

/-!
The lexemes of a source tile it. Each of them is a word of its kind that stands at its span, in the
order of the source, and what is before, between and behind them is made of blanks and plain
comments. Where the scan fails, the source is tiled in this way up to the place of the error, and
there nothing starts that could be read.
-/
namespace GrammarKit

/-- Two stretches next to each other. -/
theorem Text.slice_append (t : Text) {start middle stop : Nat} (hstart : start ≤ middle)
    (hstop : middle ≤ stop) :
    t.slice start middle ++ t.slice middle stop = t.slice start stop := by
  rw [slice_natCast, slice_natCast, slice_natCast]
  have hdrop : t.drop middle = (t.drop start).drop (middle - start) := by
    rw [List.drop_drop, Nat.add_sub_cancel' hstart]
  rw [hdrop, ← List.take_add]
  congr 1
  omega

/-- What is in front of the rest of a text. -/
theorem Text.slice_of_drop {t w more : Text} {offset : Nat} (h : t.drop offset = w ++ more) :
    t.slice offset (offset + w.length : Nat) = w ∧ t.drop (offset + w.length) = more ∧
      (offset ≤ t.length → offset + w.length ≤ t.length) := by
  refine ⟨?_, ?_, fun hle => ?_⟩
  · rw [slice_natCast, h, Nat.add_sub_cancel_left]
    exact List.take_left
  · rw [← List.drop_drop, h]
    exact List.drop_left
  · have hlength := congrArg List.length h
    rw [List.length_drop, List.length_append] at hlength
    omega

namespace Lexeme

def Skipped (w : Text) : Prop := ∃ parts : List Text, w = parts.flatten ∧ ∀ p ∈ parts, Skippable p

theorem skipped_nil : Skipped [] := ⟨[], rfl, nofun⟩

theorem Skipped.cons {p w : Text} (hp : Skippable p) (h : Skipped w) : Skipped (p ++ w) := by
  obtain ⟨parts, rfl, hparts⟩ := h
  exact ⟨p :: parts, rfl, List.forall_mem_cons.mpr ⟨hp, hparts⟩⟩

/-- The lexemes tile the source from one offset up to another. -/
structure Tiling (source : Text) (start stop : Nat) (lexemes : List Lexeme) : Prop where
  le : start ≤ stop
  le_length : stop ≤ source.length
  bounds : ∀ l ∈ lexemes,
    (start : Int) ≤ l.span.start ∧ l.span.start < l.span.stop ∧ l.span.stop ≤ stop
  ordered : lexemes.Pairwise fun l l' => l.span.stop ≤ l'.span.start
  /-- The gaps are those before, between and behind the lexemes. -/
  gaps : List.Forall₂ (fun a b : Int => Skipped (source.slice a b))
    (start :: lexemes.map (·.span.stop)) (lexemes.map (·.span.start) ++ [(stop : Int)])
  worded : ∀ l ∈ lexemes, Worded l.kind (source.slice l.span.start l.span.stop)
    (source.drop l.span.stop.toNat)
  text_eq : ∀ l ∈ lexemes, l.kind ≠ .doc → l.text = source.slice l.span.start l.span.stop

namespace Tiling

variable {source : Text} {start middle stop : Nat} {lexemes : List Lexeme}

theorem nil (h : start ≤ source.length) : Tiling source start start [] where
  le := le_refl start
  le_length := h
  bounds := nofun
  ordered := .nil
  gaps := by
    refine .cons ?_ .nil
    rw [Text.slice_natCast, Nat.sub_self]
    exact skipped_nil
  worded := nofun
  text_eq := nofun

/-- Something to skip in front makes the first gap longer. -/
theorem skip (hle : start ≤ middle) (hskip : Skippable (source.slice start middle))
    (h : Tiling source middle stop lexemes) : Tiling source start stop lexemes where
  le := hle.trans h.le
  le_length := h.le_length
  bounds := by
    intro l hl
    obtain ⟨hstart, hspan, hstop⟩ := h.bounds l hl
    exact ⟨by omega, hspan, hstop⟩
  ordered := h.ordered
  gaps := by
    have hlonger : ∀ b : Nat, middle ≤ b → Skipped (source.slice middle b) →
        Skipped (source.slice start b) := by
      intro b hb hskipped
      rw [← Text.slice_append source hle hb]
      exact hskipped.cons hskip
    have hgaps := h.gaps
    cases lexemes with
    | nil =>
      cases hgaps with
      | cons hfirst hrest => exact .cons (hlonger stop h.le hfirst) hrest
    | cons l ls =>
      have hbounds := h.bounds l List.mem_cons_self
      obtain ⟨b, hb⟩ : ∃ b : Nat, l.span.start = b := ⟨l.span.start.toNat, by omega⟩
      rw [List.map_cons, List.map_cons, List.cons_append] at hgaps ⊢
      cases hgaps with
      | cons hfirst hrest =>
        rw [hb] at hfirst
        refine .cons ?_ hrest
        rw [hb]
        exact hlonger b (by omega) hfirst
  worded := h.worded
  text_eq := h.text_eq

/-- A word in front is one more lexeme. -/
theorem cons {kind : Kind} {text : Text} (hlt : start < middle)
    (hworded : Worded kind (source.slice start middle) (source.drop middle))
    (htext : kind ≠ .doc → text = source.slice start middle)
    (h : Tiling source middle stop lexemes) :
    Tiling source start stop (⟨kind, text, ⟨start, middle⟩⟩ :: lexemes) where
  le := hlt.le.trans h.le
  le_length := h.le_length
  bounds := by
    refine List.forall_mem_cons.mpr ⟨?_, fun l hl => ?_⟩
    · have hle := h.le
      exact ⟨le_refl _, by simp only; omega, by simp only; omega⟩
    · obtain ⟨hstart, hspan, hstop⟩ := h.bounds l hl
      exact ⟨by omega, hspan, hstop⟩
  ordered := List.pairwise_cons.mpr ⟨fun l hl => (h.bounds l hl).1, h.ordered⟩
  gaps := by
    refine .cons ?_ h.gaps
    rw [Text.slice_natCast, Nat.sub_self]
    exact skipped_nil
  worded := List.forall_mem_cons.mpr ⟨hworded, h.worded⟩
  text_eq := List.forall_mem_cons.mpr ⟨htext, h.text_eq⟩

end Tiling

def Barren (t : Text) : Prop :=
  ∀ w more, t = w ++ more → ¬ Skippable w ∧ ∀ kind, ¬ Worded kind w more

theorem barren_of_front {u : CodeUnit} {rest : Text} {refusal : Piece.Refusal}
    (h : Piece.front u rest = .error refusal) : Barren (u :: rest) := by
  intro w more hsplit
  refine ⟨fun hskippable => ?_, fun kind hworded => ?_⟩
  · obtain ⟨piece, hpiece⟩ := Piece.exists_front_of_skippable hskippable hsplit
    rw [h] at hpiece
    cases hpiece
  · obtain ⟨piece, hpiece⟩ := Piece.exists_front_of_worded hworded hsplit
    rw [h] at hpiece
    cases hpiece

/-- The source is tiled up to the place of an error, and there nothing can be read. -/
def StopsAt (source : Text) (start : Nat) (e : GrammarError) : Prop :=
  ∃ (position : Nat) (stop : Int) (lexemes : List Lexeme), e.span = some ⟨position, stop⟩ ∧
    position < source.length ∧ Tiling source start position lexemes ∧
    Barren (source.drop position)

/-- One step of a scan: what is behind a piece is the rest of the source, and what tiles that rest
tiles the source from the piece on. -/
theorem tiling_step {source : Text} {offset : Nat} {u : CodeUnit} {rest : Text}
    {piece : Piece} (hdrop : source.drop offset = u :: rest) (hle : offset ≤ source.length)
    (hfront : Piece.front u rest = .ok piece) :
    source.drop (offset + piece.width) = (u :: rest).drop piece.width ∧
      offset + piece.width ≤ source.length ∧
      ∀ {stop : Nat} {lexemes : List Lexeme},
        Tiling source (offset + piece.width) stop lexemes →
          Tiling source offset stop (match piece.lexeme with
            | some (kind, text) => ⟨kind, text, ⟨offset, offset + piece.width⟩⟩ :: lexemes
            | none => lexemes) := by
  obtain ⟨w, more, hsplit, hwidth, htells⟩ := Piece.tells_of_front hfront
  obtain ⟨hslice, hmore, hbound⟩ := Text.slice_of_drop (hdrop.trans hsplit)
  rw [hwidth] at hslice hmore hbound
  refine ⟨?_, hbound hle, fun htiling => ?_⟩
  · rw [hmore, hsplit, ← hwidth]
    exact List.drop_left.symm
  · have hpos := piece.width_pos
    unfold Piece.Tells at htells
    split at htells
    · next hnone =>
      rw [hnone]
      rw [← hslice] at htells
      exact htiling.skip (Nat.le_add_right _ _) htells
    · next kind text hsome =>
      rw [hsome]
      rw [← hslice, ← hmore] at htells
      exact htiling.cons (by omega) htells.1 htells.2

/-- The lexemes that are scanned tile the rest of the source. -/
theorem tiling_of_scanFrom {source : Text} {offset : Nat} {t : Text} {lexemes : List Lexeme}
    (hdrop : source.drop offset = t) (hle : offset ≤ source.length)
    (h : scanFrom offset t = .ok lexemes) : Tiling source offset source.length lexemes := by
  fun_induction scanFrom offset t generalizing lexemes with
  | case1 offset =>
    cases h
    obtain rfl : offset = source.length := le_antisymm hle (List.drop_eq_nil_iff.mp hdrop)
    exact .nil le_rfl
  | case2 => cases h
  | case3 offset u rest piece hfront ih =>
    obtain ⟨hrest, hbound, htiling⟩ := tiling_step hdrop hle hfront
    obtain ⟨others, hothers, hlexeme⟩ := exists_of_bind_eq_ok h
    have htiles := htiling (ih hrest hbound hothers)
    split at hlexeme
    · next hsome =>
      cases hlexeme
      rwa [hsome] at htiles
    · next hnone =>
      cases hlexeme
      rwa [hnone] at htiles

/-- An error stops the scan at a place up to which the source is tiled. -/
theorem stopsAt_of_scanFrom {source : Text} {offset : Nat} {t : Text} {e : GrammarError}
    (hdrop : source.drop offset = t) (hle : offset ≤ source.length)
    (h : scanFrom offset t = .error e) : StopsAt source offset e := by
  fun_induction scanFrom offset t with
  | case1 => cases h
  | case2 offset u rest problem width hfront =>
    cases h
    refine ⟨offset, offset + width, [], rfl, ?_, .nil hle, ?_⟩
    · by_contra hlt
      rw [List.drop_eq_nil_of_le (Nat.le_of_not_lt hlt)] at hdrop
      cases hdrop
    · rw [hdrop]
      exact barren_of_front hfront
  | case3 offset u rest piece hfront ih =>
    obtain ⟨hrest, hbound, htiling⟩ := tiling_step hdrop hle hfront
    cases hscan : scanFrom (offset + piece.width) ((u :: rest).drop piece.width) with
    | error e' =>
      rw [hscan] at h
      cases h
      obtain ⟨position, stop, lexemes, hspan, hposition, hlexemes, hbarren⟩ :=
        ih hrest hbound hscan
      exact ⟨position, stop, _, hspan, hposition, htiling hlexemes, hbarren⟩
    | ok lexemes =>
      rw [hscan] at h
      simp only [bind, Except.bind] at h
      split at h <;> cases h

/-- A source that is one piece is one lexeme. -/
theorem scan_of_front {u : CodeUnit} {rest text : Text} {kind : Kind} {piece : Piece}
    (hfront : Piece.front u rest = .ok piece) (hlexeme : piece.lexeme = some (kind, text))
    (hwidth : piece.width = (u :: rest).length) :
    scan (u :: rest) = .ok [⟨kind, text, ⟨0, (u :: rest).length⟩⟩] := by
  rw [scan, scanFrom, hfront]
  simp only [hlexeme, hwidth, List.drop_length, scanFrom, bind, Except.bind, Int.natCast_zero,
    Int.zero_add]

/-- The scan of any source ends: its lexemes tile the source, or they do so up to the place of the
error. It ends since every piece that is read has units, and all of them are those of the source. -/
theorem scan_tiles (source : Text) :
    ((∃ lexemes, scan source = .ok lexemes ∧ Tiling source 0 source.length lexemes) ∨
      ∃ e, scan source = .error e ∧ StopsAt source 0 e) ∧
    ∀ (offset : Nat) (u : CodeUnit) (rest : Text) (piece : Piece),
      source.drop offset = u :: rest → Piece.front u rest = .ok piece →
        offset < offset + piece.width ∧ offset + piece.width ≤ source.length := by
  refine ⟨?_, fun offset u rest piece hdrop hfront => ⟨?_, ?_⟩⟩
  · cases hscan : scan source with
    | ok lexemes =>
      exact Or.inl ⟨lexemes, rfl, tiling_of_scanFrom List.drop_zero (Nat.zero_le _) hscan⟩
    | error e => exact Or.inr ⟨e, rfl, stopsAt_of_scanFrom List.drop_zero (Nat.zero_le _) hscan⟩
  · exact Nat.lt_add_of_pos_right piece.width_pos
  · have hle : offset ≤ source.length := by
      by_contra hlt
      rw [List.drop_eq_nil_of_le (Nat.le_of_not_le hlt)] at hdrop
      cases hdrop
    exact (tiling_step hdrop hle hfront).2.1

end Lexeme

end GrammarKit
