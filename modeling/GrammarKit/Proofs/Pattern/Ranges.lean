import GrammarKit.Pattern.Matcher
import Mathlib.Data.Int.Order.Basic
import Mathlib.Data.List.Basic
import Mathlib.Order.Basic

/-!
The normal form of ranges. Joining sorted ranges covers the same integers and leaves a gap behind
each of them, also where some of the given ranges are reversed, so that a search may halve them.
Ranges that are not reversed have one normal form for each set of integers.
-/
namespace GrammarKit

namespace CodeRange

def Covers (ranges : List CodeRange) (c : Int) : Prop := ∃ r ∈ ranges, r.Contains c

instance (ranges : List CodeRange) (c : Int) : Decidable (Covers ranges c) :=
  inferInstanceAs (Decidable (∃ r ∈ ranges, _))

theorem covers_cons {r : CodeRange} {rest : List CodeRange} {c : Int} :
    Covers (r :: rest) c ↔ r.Contains c ∨ Covers rest c := by
  simp only [Covers, List.exists_mem_cons_iff]

theorem covers_of_perm {ranges others : List CodeRange} (h : ranges.Perm others) (c : Int) :
    Covers ranges c ↔ Covers others c := by
  simp only [Covers, h.mem_iff]

/-- The ranges do not begin before earlier ones, and each ends with a gap before the later ones
begin. Reversed ranges may be among them. -/
structure Apart (ranges : List CodeRange) : Prop where
  sorted : ranges.Pairwise fun a b => a.first ≤ b.first
  gaps : ranges.Pairwise fun a b => a.last + 1 < b.first

/-- No range is reversed, and they are sorted, disjoint and do not touch. -/
structure IsNormal (ranges : List CodeRange) : Prop extends Apart ranges where
  proper : ∀ r ∈ ranges, r.first ≤ r.last

section Sorting

theorem le_iff {a b : CodeRange} :
    le a b = true ↔ a.first < b.first ∨ a.first = b.first ∧ a.last ≤ b.last := by
  simp [le]

theorem le_trans (a b c : CodeRange) (hab : le a b = true) (hbc : le b c = true) :
    le a c = true := by
  rw [le_iff] at *
  omega

theorem le_total (a b : CodeRange) : (le a b || le b a) = true := by
  rw [Bool.or_eq_true, le_iff, le_iff]
  omega

variable (ranges : List CodeRange)

theorem perm_inOrder : (inOrder le ranges).Perm ranges := by
  rw [inOrder_eq_mergeSort le_trans le_total]
  exact List.mergeSort_perm ranges le

theorem pairwise_inOrder : (inOrder le ranges).Pairwise fun a b => a.first ≤ b.first := by
  rw [inOrder_eq_mergeSort le_trans le_total]
  refine (List.pairwise_mergeSort le_trans le_total ranges).imp fun {a b} h => ?_
  rw [le_iff] at h
  omega

end Sorting

section Joining

variable {current r : CodeRange} {rest : List CodeRange}

/-- A range that overlaps or touches the one before it is joined to it without any integer being
lost or won, even if one of the two is reversed. -/
theorem contains_join (hsorted : current.first ≤ r.first) (hjoin : r.first ≤ current.last + 1)
    (c : Int) : Contains ⟨current.first, max current.last r.last⟩ c ↔
      current.Contains c ∨ r.Contains c := by
  simp only [Contains]
  omega

/-- A range that grows at its end stays in order. -/
theorem sorted_join (last : Int)
    (h : (current :: r :: rest).Pairwise fun a b => a.first ≤ b.first) :
    (⟨current.first, last⟩ :: rest : List CodeRange).Pairwise fun a b => a.first ≤ b.first := by
  obtain ⟨hcurrent, hrest⟩ := List.pairwise_cons.mp h
  exact List.pairwise_cons.mpr
    ⟨fun s hs => hcurrent s (List.mem_cons_of_mem r hs), (List.pairwise_cons.mp hrest).2⟩

theorem first_le_of_mem_joinFrom (h : (current :: rest).Pairwise fun a b => a.first ≤ b.first) :
    ∀ s ∈ joinFrom current rest, current.first ≤ s.first := by
  fun_induction joinFrom current rest with
  | case1 current => simp
  | case2 current r rest _ ih => exact ih (sorted_join _ h)
  | case3 current r rest _ ih =>
    obtain ⟨hcurrent, hrest⟩ := List.pairwise_cons.mp h
    intro s hs
    rcases List.mem_cons.mp hs with rfl | hs
    · exact Int.le_refl _
    · exact Int.le_trans (hcurrent r List.mem_cons_self) (ih hrest s hs)

theorem apart_joinFrom (h : (current :: rest).Pairwise fun a b => a.first ≤ b.first) :
    Apart (joinFrom current rest) := by
  fun_induction joinFrom current rest with
  | case1 current => exact ⟨List.pairwise_singleton _ _, List.pairwise_singleton _ _⟩
  | case2 current r rest _ ih => exact ih (sorted_join _ h)
  | case3 current r rest hgap ih =>
    obtain ⟨hcurrent, hrest⟩ := List.pairwise_cons.mp h
    have hle := hcurrent r List.mem_cons_self
    have hfirst := first_le_of_mem_joinFrom hrest
    refine ⟨List.pairwise_cons.mpr ⟨fun s hs => ?_, (ih hrest).sorted⟩,
      List.pairwise_cons.mpr ⟨fun s hs => ?_, (ih hrest).gaps⟩⟩
    · exact Int.le_trans hle (hfirst s hs)
    · have := hfirst s hs
      omega

theorem covers_joinFrom (h : (current :: rest).Pairwise fun a b => a.first ≤ b.first) (c : Int) :
    Covers (joinFrom current rest) c ↔ Covers (current :: rest) c := by
  fun_induction joinFrom current rest with
  | case1 current => exact Iff.rfl
  | case2 current r rest hjoin ih =>
    have hle := (List.pairwise_cons.mp h).1 r List.mem_cons_self
    rw [ih (sorted_join _ h), covers_cons, contains_join hle hjoin, covers_cons, covers_cons,
      or_assoc]
  | case3 current r rest _ ih =>
    rw [covers_cons, ih (List.pairwise_cons.mp h).2, ← covers_cons]

theorem proper_joinFrom (h : ∀ s ∈ current :: rest, s.first ≤ s.last) :
    ∀ s ∈ joinFrom current rest, s.first ≤ s.last := by
  fun_induction joinFrom current rest with
  | case1 current => exact h
  | case2 current r rest _ ih =>
    refine ih (List.forall_mem_cons.mpr ⟨?_, fun s hs => ?_⟩)
    · have := h current List.mem_cons_self
      simp only
      omega
    · exact h s (List.mem_cons_of_mem _ (List.mem_cons_of_mem _ hs))
  | case3 current r rest _ ih =>
    obtain ⟨hcurrent, hrest⟩ := List.forall_mem_cons.mp h
    exact List.forall_mem_cons.mpr ⟨hcurrent, ih hrest⟩

end Joining

section Normalizing

variable (ranges : List CodeRange)

theorem apart_normalize : Apart (normalize ranges) := by
  have hsorted := pairwise_inOrder ranges
  unfold normalize
  cases hinOrder : inOrder le ranges with
  | nil => exact ⟨.nil, .nil⟩
  | cons r rest =>
    rw [hinOrder] at hsorted
    exact apart_joinFrom hsorted

theorem covers_normalize (c : Int) : Covers (normalize ranges) c ↔ Covers ranges c := by
  have hsorted := pairwise_inOrder ranges
  rw [← covers_of_perm (perm_inOrder ranges) c]
  unfold normalize
  cases hinOrder : inOrder le ranges with
  | nil => exact Iff.rfl
  | cons r rest =>
    rw [hinOrder] at hsorted
    exact covers_joinFrom hsorted c

theorem isNormal_normalize (h : ∀ r ∈ ranges, r.first ≤ r.last) : IsNormal (normalize ranges) := by
  refine ⟨apart_normalize ranges, ?_⟩
  have hproper : ∀ r ∈ inOrder le ranges, r.first ≤ r.last :=
    fun r hr => h r ((perm_inOrder ranges).mem_iff.mp hr)
  unfold normalize
  cases hinOrder : inOrder le ranges with
  | nil => nofun
  | cons r rest =>
    rw [hinOrder] at hproper
    exact proper_joinFrom hproper

end Normalizing

section Uniqueness

variable {r s : CodeRange} {rest others : List CodeRange}

theorem IsNormal.tail (h : IsNormal (r :: rest)) : IsNormal rest :=
  ⟨⟨(List.pairwise_cons.mp h.sorted).2, (List.pairwise_cons.mp h.gaps).2⟩,
    (List.forall_mem_cons.mp h.proper).2⟩

theorem IsNormal.covers_first (h : IsNormal (r :: rest)) : Covers (r :: rest) r.first :=
  ⟨r, List.mem_cons_self, Int.le_refl _, h.proper r List.mem_cons_self⟩

/-- The first range begins with the least integer that is covered. -/
theorem Apart.first_le (h : Apart (r :: rest)) {c : Int} (hc : Covers (r :: rest) c) :
    r.first ≤ c := by
  obtain ⟨s, hs, hcontains⟩ := hc
  rcases List.mem_cons.mp hs with rfl | hs
  · exact hcontains.1
  · exact Int.le_trans ((List.pairwise_cons.mp h.sorted).1 s hs) hcontains.1

/-- The later ranges cover what is covered behind the gap. -/
theorem Apart.covers_tail (h : Apart (r :: rest)) (c : Int) :
    Covers rest c ↔ Covers (r :: rest) c ∧ r.last + 1 < c := by
  rw [covers_cons]
  constructor
  · intro hc
    obtain ⟨s, hs, hcontains⟩ := hc
    have hgap := (List.pairwise_cons.mp h.gaps).1 s hs
    exact ⟨Or.inr ⟨s, hs, hcontains⟩, Int.lt_of_lt_of_le hgap hcontains.1⟩
  · rintro ⟨hr | hrest, hlt⟩
    · have := hr.2
      omega
    · exact hrest

/-- The integer behind the first range is not covered. -/
theorem Apart.not_covers_gap (h : Apart (r :: rest)) : ¬ Covers (r :: rest) (r.last + 1) := by
  intro hc
  rcases covers_cons.mp hc with hr | hrest
  · have := hr.2
    omega
  · exact Int.lt_irrefl _ ((h.covers_tail _).mp hrest).2

/-- A covered range that begins with the first one does not reach behind it. -/
theorem IsNormal.last_le (h : IsNormal (r :: rest)) (hfirst : r.first = s.first)
    (hs : ∀ c, s.Contains c → Covers (r :: rest) c) : s.last ≤ r.last := by
  by_contra hlt
  have hproper := h.proper r List.mem_cons_self
  exact h.not_covers_gap (hs _ ⟨by omega, by omega⟩)

/-- There is one normal form for each set of integers. -/
theorem IsNormal.unique {ranges : List CodeRange} (h : IsNormal ranges) :
    ∀ {others : List CodeRange}, IsNormal others →
      (∀ c, Covers ranges c ↔ Covers others c) → ranges = others := by
  induction ranges with
  | nil =>
    intro others hothers hsame
    cases others with
    | nil => rfl
    | cons s others =>
      obtain ⟨r, hr, -⟩ := (hsame s.first).mpr hothers.covers_first
      cases hr
  | cons r rest ih =>
    intro others hothers hsame
    cases others with
    | nil =>
      obtain ⟨s, hs, -⟩ := (hsame r.first).mp h.covers_first
      cases hs
    | cons s others =>
      have hfirst : r.first = s.first :=
        Int.le_antisymm (h.first_le ((hsame _).mpr hothers.covers_first))
          (hothers.first_le ((hsame _).mp h.covers_first))
      have hlast : r.last = s.last :=
        Int.le_antisymm
          (hothers.last_le hfirst.symm fun c hc => (hsame c).mp ⟨r, List.mem_cons_self, hc⟩)
          (h.last_le hfirst fun c hc => (hsame c).mpr ⟨s, List.mem_cons_self, hc⟩)
      obtain rfl : r = s := by
        cases r
        cases s
        simp_all
      congr 1
      refine ih h.tail hothers.tail fun c => ?_
      rw [h.covers_tail, hothers.covers_tail, hsame]

end Uniqueness

end CodeRange

namespace Matcher

open CodeRange

theorem apart_getElem? {ranges : Array CodeRange} (h : Apart ranges.toList) {i j : Nat}
    {a b : CodeRange} (hij : i < j) (ha : ranges[i]? = some a) (hb : ranges[j]? = some b) :
    a.first ≤ b.first ∧ a.last + 1 < b.first := by
  obtain ⟨hi, rfl⟩ := Array.getElem?_eq_some_iff.mp ha
  obtain ⟨hj, rfl⟩ := Array.getElem?_eq_some_iff.mp hb
  exact ⟨List.pairwise_iff_getElem.mp h.sorted i j hi hj hij,
    List.pairwise_iff_getElem.mp h.gaps i j hi hj hij⟩

/-- Halving finds a range that holds an integer if there is one. -/
theorem searchFrom_iff {ranges : Array CodeRange} (h : Apart ranges.toList) (c : Int)
    {lo hi : Nat} (hhi : hi ≤ ranges.size) :
    searchFrom ranges c lo hi = true ↔
      ∃ i r, lo ≤ i ∧ i < hi ∧ ranges[i]? = some r ∧ r.Contains c := by
  fun_induction searchFrom ranges c lo hi with
  | case1 lo hi hlt mid hnone =>
    have hmid : mid < ranges.size := by omega
    rw [Array.getElem?_eq_getElem hmid] at hnone
    cases hnone
  | case2 lo hi hlt mid r hr hbefore ih =>
    rw [ih (by omega)]
    constructor
    · rintro ⟨i, s, hlo, hi, hs, hcontains⟩
      exact ⟨i, s, hlo, by omega, hs, hcontains⟩
    · rintro ⟨i, s, hlo, hi, hs, hcontains⟩
      refine ⟨i, s, hlo, ?_, hs, hcontains⟩
      have hfirst := hcontains.1
      rcases Nat.lt_trichotomy i mid with hlt | rfl | hgt
      · exact hlt
      · rw [hr] at hs
        cases hs
        omega
      · have := (apart_getElem? h hgt hr hs).1
        omega
  | case3 lo hi hlt mid r hr hbefore hbehind ih =>
    rw [ih hhi]
    constructor
    · rintro ⟨i, s, hlo, hi, hs, hcontains⟩
      exact ⟨i, s, by omega, hi, hs, hcontains⟩
    · rintro ⟨i, s, hlo, hi, hs, hcontains⟩
      refine ⟨i, s, ?_, hi, hs, hcontains⟩
      have hlast := hcontains.2
      rcases Nat.lt_trichotomy i mid with hlt | rfl | hgt
      · have := (apart_getElem? h hlt hs hr).2
        omega
      · rw [hr] at hs
        cases hs
        omega
      · exact hgt
  | case4 lo hi hlt mid r hr hbefore hbehind =>
    exact iff_of_true rfl ⟨mid, r, by omega, by omega, hr, by omega, by omega⟩
  | case5 lo hi hge =>
    refine iff_of_false Bool.false_ne_true ?_
    rintro ⟨i, -, hlo, hi, -⟩
    omega

theorem covers_iff {m : Matcher} (h : Apart m.ranges.toList) (c : Int) :
    m.covers c = true ↔ Covers m.ranges.toList c := by
  unfold covers
  rw [searchFrom_iff h c (Nat.le_refl _)]
  constructor
  · rintro ⟨i, r, -, -, hr, hcontains⟩
    exact ⟨r, Array.mem_toList_iff.mpr (Array.mem_of_getElem? hr), hcontains⟩
  · rintro ⟨r, hr, hcontains⟩
    obtain ⟨i, hi, rfl⟩ := Array.mem_iff_getElem.mp (Array.mem_toList_iff.mp hr)
    exact ⟨i, _, Nat.zero_le i, hi, Array.getElem?_eq_getElem hi, hcontains⟩

/-- A matcher accepts what its ranges cover, or what they do not. -/
theorem accepts_ofRanges (ranges : List CodeRange) (negated : Bool) (c : Int) :
    (ofRanges ranges negated).accepts c = (negated ^^ decide (Covers ranges c)) := by
  have hcovers : (ofRanges ranges negated).covers c = decide (Covers ranges c) := by
    rw [Bool.eq_iff_iff, covers_iff (apart_normalize ranges), decide_eq_true_iff]
    exact covers_normalize ranges c
  unfold accepts
  rw [hcovers]
  exact Bool.xor_comm _ _

/-- A matcher holds its ranges in a canonical form: what it accepts is read off the ranges it was
made of, reversed ones standing for no integer, and ranges that are not reversed are held in the one
normal form of the integers that they cover. -/
theorem ofRanges_canonical (ranges : List CodeRange) (negated : Bool) :
    (∀ c, (ofRanges ranges negated).accepts c =
      (negated ^^ decide (∃ r ∈ ranges, r.first ≤ c ∧ c ≤ r.last))) ∧
    ((∀ r ∈ ranges, r.first ≤ r.last) →
      IsNormal (ofRanges ranges negated).ranges.toList ∧
      ∀ (others : List CodeRange) (negated' : Bool), (∀ r ∈ others, r.first ≤ r.last) →
        (∀ c, Covers ranges c ↔ Covers others c) →
        (ofRanges others negated').ranges = (ofRanges ranges negated).ranges) := by
  refine ⟨accepts_ofRanges ranges negated, fun hproper => ⟨isNormal_normalize ranges hproper, ?_⟩⟩
  intro others negated' hothers hsame
  refine congrArg List.toArray ((isNormal_normalize others hothers).unique
    (isNormal_normalize ranges hproper) fun c => ?_)
  rw [covers_normalize, covers_normalize, hsame]

def touchingRanges : List CodeRange := [⟨5, 10⟩, ⟨1, 4⟩, ⟨8, 12⟩]

theorem ofRanges_canonical_touching :
    (∀ c, (ofRanges touchingRanges false).accepts c =
      (false ^^ decide (∃ r ∈ touchingRanges, r.first ≤ c ∧ c ≤ r.last))) ∧
    IsNormal (ofRanges touchingRanges false).ranges.toList ∧
    (ofRanges [⟨1, 12⟩] true).ranges = (ofRanges touchingRanges false).ranges := by
  obtain ⟨haccepts, hcanonical⟩ := ofRanges_canonical touchingRanges false
  obtain ⟨hnormal, hunique⟩ := hcanonical (by decide)
  refine ⟨haccepts, hnormal, hunique [⟨1, 12⟩] true (by decide) fun c => ?_⟩
  simp only [touchingRanges, Covers, Contains, List.exists_mem_cons_iff, List.not_mem_nil,
    false_and, exists_false, or_false]
  omega

end Matcher

end GrammarKit
