import GrammarKit.Proofs.Pattern.Extent
import GrammarKit.Proofs.Source.Acceptance

/-!
Places in a source. Scanning and reading say where an error is by the units that are left, by the
span of a lexeme or by the end of the source. Main statements: all of these lie in the source, and a
definition that is read is spelled by lexemes that lie there in order.
-/
namespace GrammarKit

structure Span.Within (length : Nat) (span : Span) : Prop where
  nonneg : 0 ≤ span.start
  ordered : span.start ≤ span.stop
  bounded : span.stop ≤ length

def GrammarError.Within (length : Nat) (e : GrammarError) : Prop :=
  ∃ span, e.span = some span ∧ span.Within length

def FailsWithin (length : Nat) {α : Type} (x : Except GrammarError α) : Prop :=
  ∀ e, x = .error e → e.Within length

namespace FailsWithin

variable {length : Nat} {α β : Type}

theorem of_ok (a : α) : FailsWithin length (.ok a : Except GrammarError α) := by
  intro e heq
  cases heq

theorem of_error {e : GrammarError} (h : e.Within length) :
    FailsWithin length (.error e : Except GrammarError α) := by
  intro e' heq
  cases heq
  exact h

theorem bind {x : Except GrammarError α} {f : α → Except GrammarError β}
    (hx : FailsWithin length x) (hf : ∀ a, x = .ok a → FailsWithin length (f a)) :
    FailsWithin length (x >>= f) := by
  intro e h
  rcases cases_of_bind_eq_error h with he | ⟨a, ha, he⟩
  · exact hx e he
  · exact hf a ha e he

end FailsWithin

namespace Piece

variable {u : CodeUnit} {rest : Text} {problem : GrammarError.Problem} {width : Nat}

theorem width_of_delimited {kind : Lexeme.Kind} {closing : CodeUnit} {t : Text}
    {fault : GrammarError.Problem}
    (h : delimited kind closing fault t rest = .error (problem, width)) : width = 1 := by
  unfold delimited at h
  split at h
  · cases h
  · cases h
    rfl

theorem width_of_ofUnits (h : ofUnits u rest = .error (problem, width)) : width = 1 := by
  unfold ofUnits at h
  simp only at h
  split at h
  · cases h
  · split at h
    · exact width_of_delimited h
    · split at h
      · exact width_of_delimited h
      · split at h
        · cases h
        · split at h
          · cases h
          · cases h
            rfl

/-- Where no piece starts, an error covers no more than what is left. -/
theorem width_le_of_front (h : front u rest = .error (problem, width)) :
    width ≤ rest.length + 1 := by
  unfold front at h
  split at h
  · cases h
  · split at h
    · cases h
      exact Nat.le_refl _
    · cases h
    · have hwidth := width_of_ofUnits h
      omega

end Piece

namespace Lexeme

/-- Lexemes lie in a source, one behind the other, and each is as long as its text. -/
structure Ranged (length : Nat) (ls : List Lexeme) : Prop where
  within : ∀ l ∈ ls, l.span.Within length
  ordered : ls.Pairwise fun l l' => l.span.stop ≤ l'.span.start
  sized : ∀ l ∈ ls, l.kind ≠ .doc → l.span.stop = l.span.start + l.text.length

theorem scanFrom_failsWithin {source : Text} {offset : Nat} {t : Text}
    (hdrop : source.drop offset = t) (hle : offset ≤ source.length) :
    FailsWithin source.length (scanFrom offset t) := by
  fun_induction scanFrom offset t with
  | case1 => exact .of_ok _
  | case2 offset u rest problem width hfront =>
    have hwidth := Piece.width_le_of_front hfront
    have hlength := congrArg List.length hdrop
    rw [List.length_drop, List.length_cons] at hlength
    exact .of_error ⟨_, rfl, Int.natCast_nonneg _, by simp only; omega, by simp only; omega⟩
  | case3 offset u rest piece hfront ih =>
    obtain ⟨hrest, hbound, -⟩ := tiling_step hdrop hle hfront
    refine .bind (ih hrest hbound) fun lexemes _ => ?_
    split
    · exact .of_ok _
    · exact .of_ok _

theorem ranged_of_scan {source : Text} {ls : List Lexeme} (h : scan source = .ok ls) :
    Ranged source.length ls where
  within l hl := by
    obtain ⟨hstart, hlt, hstop⟩ :=
      (tiling_of_scanFrom List.drop_zero (Nat.zero_le _) h).bounds l hl
    exact ⟨hstart, Int.le_of_lt hlt, hstop⟩
  ordered := (tiling_of_scanFrom List.drop_zero (Nat.zero_le _) h).ordered
  sized l hl hkind := by
    obtain ⟨start, more, hspan, -⟩ := exists_worded_of_scan h hl hkind
    rw [hspan]

namespace Ranged

variable {length : Nat} {ls others : List Lexeme} {l : Lexeme} {span : Span}

theorem sublist (h : Ranged length ls) (hsub : others.Sublist ls) : Ranged length others where
  within l hl := h.within l (hsub.subset hl)
  ordered := h.ordered.sublist hsub
  sized l hl := h.sized l (hsub.subset hl)

theorem left (h : Ranged length (ls ++ others)) : Ranged length ls :=
  h.sublist (List.sublist_append_left _ _)

theorem right (h : Ranged length (ls ++ others)) : Ranged length others :=
  h.sublist (List.sublist_append_right _ _)

theorem tail (h : Ranged length (l :: ls)) : Ranged length ls :=
  h.sublist (List.sublist_cons_self _ _)

/-- What runs from the first lexeme to the last lies in the source. -/
theorem span_within (h : Ranged length ls) (hspans : Spans ls span) : span.Within length := by
  obtain ⟨first, last, hfirst, hlast, rfl⟩ := hspans
  obtain ⟨rest, rfl⟩ := List.head?_eq_some_iff.mp hfirst
  have hmem := List.mem_of_getLast? hlast
  have hwithin := h.within first List.mem_cons_self
  have hwithin' := h.within last hmem
  refine ⟨hwithin.nonneg, ?_, hwithin'.bounded⟩
  show first.span.start ≤ last.span.stop
  rcases List.mem_cons.mp hmem with rfl | hrest
  · exact hwithin.ordered
  · have hbehind := (List.pairwise_cons.mp h.ordered).1 last hrest
    have hfirst := hwithin.ordered
    have hlast := hwithin'.ordered
    omega

/-- What is a single lexeme is as long as its text. -/
theorem span_sized (h : Ranged length ls) (hspans : Spans ls span) {kind : Kind} {text : Text}
    (hcontent : ls.map content = [(kind, text)]) (hkind : kind ≠ .doc) :
    span.stop = span.start + text.length := by
  obtain ⟨l, rfl, hl⟩ := List.map_eq_singleton_iff.mp hcontent
  cases hl
  rw [hspans.unique (.single l)]
  exact h.sized l List.mem_cons_self hkind

end Ranged

end Lexeme

namespace Source

open Lexeme (Ranged)

namespace Reader

section Taking

variable {ctx : Context} {rest : List Lexeme} (hrest : Ranged ctx.sourceLength rest)
include hrest

theorem expected_failsWithin {α : Type} (what : Expectation) :
    FailsWithin ctx.sourceLength
      (.error (expected ctx what rest) : Except GrammarError α) := by
  refine .of_error ?_
  unfold expected
  split
  · exact ⟨_, rfl, Int.natCast_nonneg _, Int.le_refl _, Int.le_refl _⟩
  · next l rest => exact ⟨_, rfl, hrest.within l List.mem_cons_self⟩

theorem demand_failsWithin (kind : Lexeme.Kind) (what : Expectation) :
    FailsWithin ctx.sourceLength (demand ctx kind what rest) := by
  unfold demand
  split
  · exact .of_ok _
  · next haccept =>
    rw [accept_none haccept]
    exact expected_failsWithin hrest what

theorem alternativeName_failsWithin (named : Bool) :
    FailsWithin ctx.sourceLength (alternativeName ctx named rest) := by
  unfold alternativeName
  split
  · exact .of_ok _
  · next arrow after haccept =>
    obtain ⟨rfl, -⟩ := accept_some haccept
    split
    · exact .bind (demand_failsWithin hrest.tail _ _) fun _ _ => .of_ok _
    · exact .of_error ⟨_, rfl, hrest.within arrow List.mem_cons_self⟩

theorem definitionKind_failsWithin : FailsWithin ctx.sourceLength (definitionKind ctx rest) := by
  unfold definitionKind
  split
  · exact .of_ok _
  · next haccept =>
    rw [accept_none haccept]
    split
    · exact .of_ok _
    · next haccept =>
      rw [accept_none haccept]
      exact expected_failsWithin hrest _

end Taking

mutual

/-- Reading complains about one of the lexemes that are left, or about their end. -/
theorem alternation_failsWithin (ctx : Context) (named : Bool) : ∀ (n : Nat) {rest : List Lexeme},
    Ranged ctx.sourceLength rest → FailsWithin ctx.sourceLength (alternation ctx named n rest)
  | 0, rest, hrest => by
    simp only [alternation]
    exact expected_failsWithin hrest _
  | n + 1, rest, hrest => by
    simp only [alternation]
    refine .bind (alternative_failsWithin ctx named n hrest) fun (a, middle) hread => ?_
    obtain ⟨-, first, rfl, -⟩ := alternative_spelled ctx named n hread
    simp only
    split
    · exact .of_ok _
    · next bar after haccept =>
      have hafter := hrest.right
      rw [(accept_some haccept).1] at hafter
      exact .bind (alternation_failsWithin ctx named n hafter.tail) fun _ _ => .of_ok _

theorem alternative_failsWithin (ctx : Context) (named : Bool) : ∀ (n : Nat) {rest : List Lexeme},
    Ranged ctx.sourceLength rest → FailsWithin ctx.sourceLength (alternative ctx named n rest)
  | 0, rest, hrest => by
    simp only [alternative]
    exact expected_failsWithin hrest _
  | n + 1, rest, hrest => by
    simp only [alternative]
    have hbody : Ranged ctx.sourceLength (accept .doc rest).2 := by
      rw [(accept_doc rest).1] at hrest
      exact hrest.right
    refine .bind (body_failsWithin ctx n hbody) fun (items, middle) hread => ?_
    obtain ⟨-, taken, htaken, -⟩ := body_spelled ctx n hread
    rw [htaken] at hbody
    simp only
    split
    · exact expected_failsWithin hbody.right _
    · exact .bind (alternativeName_failsWithin hbody.right named) fun _ _ => .of_ok _

theorem body_failsWithin (ctx : Context) : ∀ (n : Nat) {rest : List Lexeme},
    Ranged ctx.sourceLength rest → FailsWithin ctx.sourceLength (body ctx n rest)
  | 0, rest, hrest => by
    simp only [body]
    exact expected_failsWithin hrest _
  | n + 1, [], _ => by
    simp only [body]
    exact .of_ok _
  | n + 1, l :: rest, hrest => by
    simp only [body]
    split
    · refine .bind (singular_failsWithin ctx n hrest) fun (inner, middle) hread => ?_
      obtain ⟨-, first, hfirst, hspelled⟩ := singular_spelled ctx n hread
      obtain ⟨signs, hsigns, -⟩ := quantified_spelled hspelled middle
      rw [hfirst] at hrest
      have hmiddle := hrest.right
      rw [hsigns] at hmiddle
      exact .bind (body_failsWithin ctx n hmiddle.right) fun _ _ => .of_ok _
    · exact .of_ok _

theorem singular_failsWithin (ctx : Context) : ∀ (n : Nat) {rest : List Lexeme},
    Ranged ctx.sourceLength rest → FailsWithin ctx.sourceLength (singular ctx n rest)
  | 0, rest, hrest => by
    simp only [singular]
    exact expected_failsWithin hrest _
  | n + 1, [], hrest => by
    simp only [singular]
    exact expected_failsWithin hrest _
  | n + 1, l :: rest, hrest => by
    simp only [singular]
    split
    · refine .bind (alternation_failsWithin ctx false n hrest.tail) fun (_, middle) hread => ?_
      obtain ⟨-, -, inside, rfl, -⟩ := alternation_spelled ctx false n hread
      exact .bind (demand_failsWithin hrest.tail.right _ _) fun _ _ => .of_ok _
    · exact .of_ok _
    · exact .of_ok _
    · exact .of_ok _
    · exact .of_ok _
    · exact expected_failsWithin hrest _

end

theorem definition_failsWithin {sourceLength : Nat} {rest : List Lexeme}
    (hrest : Ranged sourceLength rest) :
    FailsWithin sourceLength (definition sourceLength rest) := by
  have hdoc : Ranged sourceLength (accept .doc rest).2 := by
    rw [(accept_doc rest).1] at hrest
    exact hrest.right
  unfold definition
  generalize accept .doc rest = taken at hdoc
  obtain ⟨doc, after⟩ := taken
  refine .bind (@demand_failsWithin ⟨none, sourceLength⟩ after hdoc _ _) ?_
  rintro ⟨name, behind⟩ hname
  obtain ⟨rfl, -⟩ := demand_ok hname
  refine .bind (@definitionKind_failsWithin ⟨some name.text, sourceLength⟩ behind hdoc.tail) ?_
  rintro ⟨kind, behind'⟩ hkind
  obtain ⟨sign, rfl, -⟩ := definitionKind_spelled hkind
  have hbody := hdoc.tail.tail
  refine .bind (alternation_failsWithin ⟨some name.text, sourceLength⟩ _ _ hbody) ?_
  rintro ⟨alternatives, last⟩ halternatives
  obtain ⟨-, -, inside, rfl, -⟩ := alternation_spelled _ _ _ halternatives
  exact .bind (@demand_failsWithin ⟨some name.text, sourceLength⟩ last hbody.right _ _)
    fun _ _ => .of_ok _

theorem definitions_failsWithin {sourceLength : Nat} : ∀ (limit : Nat) {rest : List Lexeme},
    Ranged sourceLength rest →
      FailsWithin sourceLength (definitions sourceLength limit rest) := by
  intro limit
  induction limit with
  | zero => exact fun _ => .of_ok _
  | succ n ih =>
    intro rest hrest
    by_cases htrailing : Trailing rest
    · rw [definitions_of_trailing htrailing]
      exact .of_ok _
    · rw [definitions_of_not_trailing htrailing]
      refine .bind (definition_failsWithin hrest) ?_
      rintro ⟨first, after⟩ hread
      obtain ⟨-, taken, rfl, -⟩ := definition_spelled hread
      exact .bind (ih hrest.right) fun _ _ => .of_ok _

end Reader

/-- A source that cannot be read is wrong at a place in it. -/
theorem read_failsWithin (source : Text) : FailsWithin source.length (read source) := by
  refine .bind (Lexeme.scanFrom_failsWithin List.drop_zero (Nat.zero_le _)) fun ls hscan => ?_
  exact Reader.definitions_failsWithin ls.length (Lexeme.ranged_of_scan hscan)

theorem Spelled.exists_of_mem {ds : List Definition} {ls : List Lexeme} (h : Spelled ds ls)
    {d : Definition} (hd : d ∈ ds) : ∃ part, part.Sublist ls ∧ d.Spelled part := by
  induction ds generalizing ls with
  | nil => cases hd
  | cons first ds ih =>
    obtain ⟨part, others, rfl, hfirst, hothers⟩ := h
    rcases List.mem_cons.mp hd with rfl | hd
    · exact ⟨part, List.sublist_append_left _ _, hfirst⟩
    · obtain ⟨part', hsub, hspelled⟩ := ih hothers hd
      exact ⟨part', hsub.trans (List.sublist_append_right _ _), hspelled⟩

theorem Alternation.Spelled.exists_of_mem {alternatives : List (Alternative (Item Singular))} :
    ∀ {ls : List Lexeme}, Alternation.Spelled alternatives ls → ∀ a ∈ alternatives,
      ∃ part, part.Sublist ls ∧ Alternative.Spelled a part := by
  induction alternatives with
  | nil => exact fun _ => nofun
  | cons first others ih =>
    intro ls h
    cases others with
    | nil =>
      simp only [Alternation.Spelled] at h
      exact List.forall_mem_singleton.mpr ⟨ls, List.Sublist.refl _, h⟩
    | cons second others =>
      simp only [Alternation.Spelled] at h
      obtain ⟨part, bar, after, rfl, hfirst, -, hothers⟩ := h
      refine List.forall_mem_cons.mpr ⟨⟨part, List.sublist_append_left _ _, hfirst⟩, ?_⟩
      intro a ha
      obtain ⟨part', hsub, hspelled⟩ := ih hothers a ha
      have hafter := hsub.trans (List.sublist_cons_self bar after)
      exact ⟨part', hafter.trans (List.sublist_append_right _ _), hspelled⟩

/-- A definition that is read is spelled by lexemes in the source. -/
theorem exists_ranged_of_read {source : Text} {ds : List Definition} (h : read source = .ok ds)
    {d : Definition} (hd : d ∈ ds) :
    ∃ ls, Ranged source.length ls ∧ d.Spelled ls := by
  obtain ⟨ls, hscan, -⟩ := exists_of_bind_eq_ok h
  obtain ⟨-, taken, rest, rfl, -, hspelled⟩ := (read_iff_written_placed hscan).mp h
  obtain ⟨part, hsub, hpart⟩ := hspelled.exists_of_mem hd
  exact ⟨part, (Lexeme.ranged_of_scan hscan).left.sublist hsub, hpart⟩

end Source

end GrammarKit
