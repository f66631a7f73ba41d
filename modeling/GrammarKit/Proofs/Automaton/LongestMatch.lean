import GrammarKit.Proofs.Automaton.Construction
import Mathlib.Order.Bounds.Basic

/-!
Running an automaton over a text. The set of states that a run is in after some code points holds
the states that a path with these code points leads to, so the last place where the run could
accept is the end of the longest word. Main statement: the longest match of a rule ends where the
longest word of the rule ends, and there is none if no word of the rule stands there, not even the
empty one.
-/
namespace GrammarKit

namespace Text

/-- The code points from one offset of a text up to another. -/
inductive Spells (t : Text) : Int → Int → List CodePoint → Prop where
  | nil (i : Int) : Spells t i i []
  | cons {i j : Int} {c : CodePoint} {width : Nat} {w : List CodePoint}
      (h : t.codePointFrom i = some (c, width)) (rest : Spells t (i + width) j w) :
      Spells t i j (c :: w)

inductive Reads : Text → List CodePoint → Nat → Prop where
  | nil (t : Text) : Reads t [] 0
  | cons {t : Text} {c : CodePoint} {width n : Nat} {w : List CodePoint}
      (h : t.codePoint? = some (c, width)) (rest : Reads (t.drop width) w n) :
      Reads t (c :: w) (width + n)

theorem Reads.le_length {t : Text} {w : List CodePoint} {n : Nat} (h : t.Reads w n) :
    n ≤ t.length := by
  induction h with
  | nil => exact Nat.zero_le _
  | cons h _ ih =>
    have hwidth := codePoint?_width h
    rw [List.length_drop] at ih
    omega

theorem ahead_natCast (t : Text) (offset : Nat) : t.ahead offset = t.drop offset := by
  have hnonneg : ¬ (offset : Int) < 0 := by omega
  rw [ahead, if_neg hnonneg, Int.toNat_natCast]

theorem ahead_add {t : Text} {i : Int} {c : CodePoint} {width : Nat}
    (h : t.codePointFrom i = some (c, width)) : t.ahead (i + width) = (t.ahead i).drop width := by
  unfold codePointFrom at h
  by_cases hi : i < 0
  · simp [ahead, hi, codePoint?] at h
  · have hi' : ¬ i + width < 0 := by omega
    have hadd : (i + width).toNat = i.toNat + width := by omega
    simp only [ahead, hi, hi', if_false, hadd, List.drop_drop]

theorem spells_iff_reads {t : Text} {i j : Int} {w : List CodePoint} :
    t.Spells i j w ↔ ∃ n : Nat, j = i + n ∧ (t.ahead i).Reads w n := by
  constructor
  · intro h
    induction h with
    | nil i => exact ⟨0, by omega, .nil _⟩
    | cons h _ ih =>
      obtain ⟨n, rfl, hread⟩ := ih
      rw [ahead_add h] at hread
      exact ⟨_, by omega, .cons h hread⟩
  · intro hreads
    obtain ⟨n, rfl, h⟩ := hreads
    generalize ht : t.ahead i = rest at h
    induction h generalizing i with
    | nil =>
      rw [Int.natCast_zero, Int.add_zero]
      exact .nil i
    | cons h _ ih =>
      subst ht
      have hrest := ih (ahead_add h)
      rw [Int.natCast_add, ← Int.add_assoc]
      exact .cons h hrest

end Text

namespace Automaton

variable {a : Automaton}

theorem mem_silentTargets {q target : Nat} :
    target ∈ a.silentTargets q ↔ ⟨none, target⟩ ∈ leaving a.edges q := by
  simp only [silentTargets, List.mem_filterMap, edgesOf, leaving]
  constructor
  · intro hedge
    obtain ⟨⟨matcher, target'⟩, he, hsome⟩ := hedge
    cases matcher with
    | none =>
      simp only [Option.isNone_none, if_true, Option.some.injEq] at hsome
      subst hsome
      exact he
    | some m => simp at hsome
  · intro he
    exact ⟨_, he, by simp⟩

theorem mem_targets {q target : Nat} {c : CodePoint} :
    target ∈ a.targets q c ↔
      ∃ m : Matcher, m.accepts c = true ∧ ⟨some m, target⟩ ∈ leaving a.edges q := by
  simp only [targets, List.mem_filterMap, edgesOf, leaving]
  constructor
  · intro hedge
    obtain ⟨⟨matcher, target'⟩, he, hsome⟩ := hedge
    cases matcher with
    | none => simp at hsome
    | some m =>
      simp only [Option.ite_none_right_eq_some, Option.some.injEq] at hsome
      obtain ⟨hm, rfl⟩ := hsome
      exact ⟨m, hm, he⟩
  · intro hedge
    obtain ⟨m, hm, he⟩ := hedge
    exact ⟨_, he, by simp [hm]⟩

theorem Path.read {p q r : Nat} {c : CodePoint} {v : List CodePoint} (hq : q ∈ a.targets p c)
    (h : Path a.edges q v r) : Path a.edges p (c :: v) r := by
  obtain ⟨m, hm, he⟩ := mem_targets.mp hq
  exact .cons he ⟨c, hm, rfl⟩ h

theorem path_of_leads {p q : Nat} (h : a.silentGraph.Leads p q) : Path a.edges p [] q := by
  induction h with
  | refl => exact .nil _
  | step hnext _ ih => exact (Path.silent (mem_silentTargets.mp hnext)).append ih

theorem leads_of_path {p q : Nat} {w : List CodePoint} (h : Path a.edges p w q) (hw : w = []) :
    a.silentGraph.Leads p q := by
  induction h with
  | nil => exact .refl _
  | @cons _ _ e u v he hu _ ih =>
    obtain ⟨rfl, rfl⟩ := List.append_eq_nil_iff.mp hw
    obtain ⟨matcher, target⟩ := e
    cases matcher with
    | none => exact .step (mem_silentTargets.mpr he) (ih rfl)
    | some m =>
      obtain ⟨c, -, hc⟩ := hu
      cases hc

theorem mem_closure {states : List Nat} {q : Nat} :
    q ∈ a.closure states ↔ ∃ p ∈ states, Path a.edges p [] q := by
  rw [closure, Graph.mem_reach_iff]
  constructor
  · intro hreached
    obtain ⟨p, hp, h⟩ := hreached
    exact ⟨p, hp, path_of_leads h⟩
  · intro hreached
    obtain ⟨p, hp, h⟩ := hreached
    exact ⟨p, hp, leads_of_path h rfl⟩

def Closed (a : Automaton) (states : List Nat) : Prop :=
  ∀ p ∈ states, ∀ q ∈ a.silentTargets p, q ∈ states

theorem closure_closed (states : List Nat) : a.Closed (a.closure states) := by
  intro q hq r hr
  obtain ⟨p, hp, hpath⟩ := mem_closure.mp hq
  exact mem_closure.mpr ⟨p, hp, hpath.append (.silent (mem_silentTargets.mp hr))⟩

theorem Closed.mem_of_path {states : List Nat} (hclosed : a.Closed states) {p r : Nat}
    (h : Path a.edges p [] r) (hp : p ∈ states) : r ∈ states := by
  have hlead := leads_of_path h rfl
  clear h
  induction hlead with
  | refl => exact hp
  | step hnext _ ih => exact ih (hclosed _ hp _ hnext)

/-- A path that starts in one of the states reads its first code point on the way to one of the
states after it. -/
theorem Closed.exists_path_cons {states : List Nat} (hclosed : a.Closed states) {c : CodePoint}
    {w : List CodePoint} {r : Nat} :
    (∃ p ∈ states, Path a.edges p (c :: w) r) ↔ ∃ q ∈ a.step states c, Path a.edges q w r := by
  constructor
  · intro hreached
    obtain ⟨p, hp, h⟩ := hreached
    generalize hv : c :: w = v at h
    induction h with
    | nil => cases hv
    | @cons p _ e u v he hu rest ih =>
      obtain ⟨matcher, target⟩ := e
      cases matcher with
      | none =>
        obtain rfl := (Language.mem_one u).mp hu
        exact ih (hclosed p hp target (mem_silentTargets.mpr he)) hv
      | some m =>
        obtain ⟨c', hc', rfl⟩ := hu
        cases hv
        refine ⟨target, mem_closure.mpr ⟨target, ?_, .nil target⟩, rest⟩
        exact List.mem_flatMap.mpr ⟨p, hp, mem_targets.mpr ⟨m, hc', he⟩⟩
  · intro hreached
    obtain ⟨q, hq, h⟩ := hreached
    obtain ⟨target, htarget, hsilent⟩ := mem_closure.mp hq
    obtain ⟨p, hp, hread⟩ := List.mem_flatMap.mp htarget
    exact ⟨p, hp, .read hread (hsilent.append h)⟩

/-- Where words end that stand at the front of a text and lead from one of the states to accept. -/
def ends (a : Automaton) (states : List Nat) (t : Text) : Set Nat :=
  {n | ∃ w, t.Reads w n ∧ ∃ p ∈ states, Path a.edges p w accept}

theorem zero_mem_ends {states : List Nat} (hclosed : a.Closed states) {t : Text} :
    0 ∈ a.ends states t ↔ accept ∈ states := by
  constructor
  · intro hend
    obtain ⟨w, hread, p, hp, h⟩ := hend
    have hw : w = [] := by
      generalize hn : 0 = n at hread
      cases hread with
      | nil => rfl
      | cons hc _ =>
        have := Text.codePoint?_width hc
        omega
    subst hw
    exact hclosed.mem_of_path h hp
  · exact fun h => ⟨[], .nil t, accept, h, .nil accept⟩

theorem ends_of_isEmpty {states : List Nat} {t : Text} (h : states.isEmpty = true) :
    a.ends states t = ∅ := by
  obtain rfl := List.isEmpty_iff.mp h
  ext n
  simp [ends]

/-- Past the first code point a match goes on from the states after it. -/
theorem mem_ends_step {states : List Nat} (hclosed : a.Closed states) {t : Text} {c : CodePoint}
    {width n : Nat} (hc : t.codePoint? = some (c, width)) :
    n ∈ a.ends states t ↔ (n = 0 ∧ accept ∈ states) ∨
      ∃ k ∈ a.ends (a.step states c) (t.drop width), n = width + k := by
  constructor
  · intro hend
    obtain ⟨w, hread, hp⟩ := hend
    cases hread with
    | nil => exact Or.inl ⟨rfl, (zero_mem_ends hclosed (t := t)).mp ⟨[], .nil t, hp⟩⟩
    | cons hc' hrest =>
      rw [hc] at hc'
      cases hc'
      exact Or.inr ⟨_, ⟨_, hrest, hclosed.exists_path_cons.mp hp⟩, rfl⟩
  · intro hend
    rcases hend with ⟨rfl, h⟩ | ⟨k, ⟨w, hrest, hp⟩, rfl⟩
    · exact (zero_mem_ends hclosed).mpr h
    · exact ⟨c :: w, .cons hc hrest, hclosed.exists_path_cons.mpr hp⟩

/-- A run gives the greatest end of a match, or what it had before if there is none. -/
theorem longestFrom_cases {states : List Nat} (hclosed : a.Closed states) (offset : Nat)
    (before longest : Option Nat) (t : Text)
    (hlongest : longest = if accept ∈ states then some offset else before) :
    (∃ n, IsGreatest (a.ends states t) n ∧
        a.longestFrom states offset longest t = some (offset + n)) ∨
      (a.ends states t = ∅ ∧ a.longestFrom states offset longest t = before) := by
  fun_induction a.longestFrom states offset longest t generalizing before with
  | case1 states offset longest t hempty =>
    refine Or.inr ⟨ends_of_isEmpty hempty, ?_⟩
    obtain rfl := List.isEmpty_iff.mp hempty
    simpa using hlongest
  | case2 states offset longest t hempty hnone =>
    obtain rfl := Text.codePoint?_eq_none.mp hnone
    by_cases haccept : accept ∈ states
    · refine Or.inl ⟨0, ⟨(zero_mem_ends hclosed).mpr haccept, ?_⟩, ?_⟩
      · intro n hn
        obtain ⟨w, hread, -⟩ := hn
        exact hread.le_length
      · simpa [haccept] using hlongest
    · refine Or.inr ⟨?_, by simpa [haccept] using hlongest⟩
      ext n
      simp only [Set.mem_empty_iff_false, iff_false]
      intro hn
      obtain rfl : n = 0 := by
        obtain ⟨w, hread, -⟩ := hn
        have := hread.le_length
        simpa using this
      exact haccept ((zero_mem_ends hclosed).mp hn)
  | case3 states offset longest t hempty c width hc states' longest' ih =>
    have hwidth := Text.codePoint?_width hc
    rcases ih (closure_closed _) longest rfl with ⟨k, hk, hrun⟩ | ⟨hnone, hrun⟩
    · refine Or.inl ⟨width + k, ⟨?_, ?_⟩, ?_⟩
      · exact (mem_ends_step hclosed hc).mpr (Or.inr ⟨k, hk.1, rfl⟩)
      · intro n hn
        rcases (mem_ends_step hclosed hc).mp hn with ⟨rfl, -⟩ | ⟨k', hk', rfl⟩
        · exact Nat.zero_le _
        · exact Nat.add_le_add_left (hk.2 hk') width
      · rw [hrun, Nat.add_assoc]
    · have hends : ∀ n, n ∈ a.ends states t ↔ n = 0 ∧ accept ∈ states := by
        intro n
        rw [mem_ends_step hclosed hc]
        constructor
        · intro hn
          rcases hn with h | ⟨k, hk, -⟩
          · exact h
          · exact (Set.eq_empty_iff_forall_notMem.mp hnone k hk).elim
        · exact Or.inl
      by_cases haccept : accept ∈ states
      · refine Or.inl ⟨0, ⟨(hends 0).mpr ⟨rfl, haccept⟩, fun n hn => ?_⟩, ?_⟩
        · exact Nat.le_of_eq ((hends n).mp hn).1
        · rw [hrun, hlongest, if_pos haccept, Nat.add_zero]
      · refine Or.inr ⟨?_, by rw [hrun, hlongest, if_neg haccept]⟩
        ext n
        simp [hends, haccept]

/-- The longest match at the front of a text ends at the greatest end of a word, counted from the
offset where the text starts. -/
theorem longestAt_cases (a : Automaton) (offset : Nat) (t : Text) :
    (∃ n, IsGreatest (a.ends (a.closure [start]) t) n ∧ a.longestAt offset t = some (offset + n)) ∨
      (a.ends (a.closure [start]) t = ∅ ∧ a.longestAt offset t = none) :=
  longestFrom_cases (closure_closed _) offset none _ t rfl

/-- From the start the ends of matches are the ends of words of the rule. -/
theorem mem_ends_start {rs : RuleSet} (hfilled : rs.LiteralsFilled) {name : Text}
    (h : ofRule rs name = .ok a) {t : Text} {n : Nat} :
    n ∈ a.ends (a.closure [start]) t ↔ ∃ w, t.Reads w n ∧ Word rs (.rule name) w := by
  constructor
  · intro hend
    obtain ⟨w, hread, p, hp, hpath⟩ := hend
    obtain ⟨q, hq, hsilent⟩ := mem_closure.mp hp
    obtain rfl := List.mem_singleton.mp hq
    exact ⟨w, hread, (path_iff_word hfilled h w).mp (hsilent.append hpath)⟩
  · intro hend
    obtain ⟨w, hread, hw⟩ := hend
    have hstart : start ∈ a.closure [start] :=
      mem_closure.mpr ⟨start, List.mem_singleton_self start, .nil start⟩
    exact ⟨w, hread, start, hstart, (path_iff_word hfilled h w).mpr hw⟩

theorem longestMatch_cases {rs : RuleSet} (hfilled : rs.LiteralsFilled) {name : Text}
    (h : ofRule rs name = .ok a) (t : Text) (offset : Int) :
    (∃ stop, IsGreatest {stop | ∃ w, t.Spells offset stop w ∧ Word rs (.rule name) w} stop ∧
        a.longestMatch t offset = some stop) ∨
      ((∀ stop w, t.Spells offset stop w → ¬ Word rs (.rule name) w) ∧
        a.longestMatch t offset = none) := by
  unfold longestMatch
  rcases a.longestAt_cases 0 (t.ahead offset) with ⟨n, hn, hrun⟩ | ⟨hnone, hrun⟩
  · refine Or.inl ⟨offset + n, ⟨?_, ?_⟩, ?_⟩
    · obtain ⟨w, hread, hw⟩ := (mem_ends_start hfilled h).mp hn.1
      exact ⟨w, Text.spells_iff_reads.mpr ⟨n, rfl, hread⟩, hw⟩
    · intro stop hspelled
      obtain ⟨w, hspell, hw⟩ := hspelled
      obtain ⟨k, rfl, hread⟩ := Text.spells_iff_reads.mp hspell
      have hk := hn.2 ((mem_ends_start hfilled h).mpr ⟨w, hread, hw⟩)
      omega
    · simp [hrun]
  · refine Or.inr ⟨?_, by simp [hrun]⟩
    intro stop w hspell hw
    obtain ⟨k, rfl, hread⟩ := Text.spells_iff_reads.mp hspell
    have hk := (mem_ends_start hfilled h).mpr ⟨w, hread, hw⟩
    exact Set.eq_empty_iff_forall_notMem.mp hnone k hk

/-- The longest match of a rule that starts at an offset ends where the longest word of the rule
ends, and there is no match if and only if no word of the rule starts there. -/
theorem longestMatch_eq_greatest_word {rs : RuleSet} (hfilled : rs.LiteralsFilled) {name : Text}
    {a : Automaton} (h : ofRule rs name = .ok a) (t : Text) (offset : Int) :
    (∀ stop, a.longestMatch t offset = some stop ↔
      IsGreatest {stop | ∃ w, t.Spells offset stop w ∧ Word rs (.rule name) w} stop) ∧
    (a.longestMatch t offset = none ↔
      ∀ stop w, t.Spells offset stop w → ¬ Word rs (.rule name) w) := by
  rcases longestMatch_cases hfilled h t offset with ⟨stop, hstop, hrun⟩ | ⟨hnone, hrun⟩
  · rw [hrun]
    refine ⟨fun stop' => ⟨?_, fun h' => ?_⟩, ?_⟩
    · intro heq
      cases heq
      exact hstop
    · rw [hstop.unique h']
    · constructor
      · intro heq
        cases heq
      · intro hno
        obtain ⟨w, hspell, hw⟩ := hstop.1
        exact (hno stop w hspell hw).elim
  · rw [hrun]
    refine ⟨fun stop => ⟨?_, ?_⟩, fun _ => hnone, fun _ => rfl⟩
    · intro heq
      cases heq
    · intro hgreatest
      obtain ⟨⟨w, hspell, hw⟩, -⟩ := hgreatest
      exact (hnone stop w hspell hw).elim

def dashedNames : RuleSet where
  rules := [
    { name := [unit 'n'], kind := .token, index := 0, doc := none, synthetic := false,
      span := ⟨0, 0⟩
      alternatives := [{ span := ⟨0, 0⟩, body := [
        ⟨.symbol [unit 'l'] ⟨0, 0⟩, .one⟩,
        ⟨.group [{ span := ⟨0, 0⟩, body := [
          ⟨.literal [unit '-'] [⟨#[⟨45, 45⟩], false⟩] ⟨0, 0⟩, .maybe⟩,
          ⟨.symbol [unit 'l'] ⟨0, 0⟩, .one⟩] }], .any⟩] }] },
    { name := [unit 'l'], kind := .token, index := 1, doc := none, synthetic := false,
      span := ⟨0, 0⟩
      alternatives := [{ span := ⟨0, 0⟩, body := [
        ⟨.charset [unit '['] ⟨#[⟨97, 122⟩], false⟩ ⟨0, 0⟩, .one⟩] }] }]
  whitespaceName := [unit '_']
  nodup := by decide
  sorted := by decide

/-- In the text `-ab-` the longest name from offset 1 on is found. -/
theorem longestMatch_dashedNames : dashedNames.LiteralsFilled ∧
    ∃ a, ofRule dashedNames [unit 'n'] = .ok a ∧
      (∀ stop, a.longestMatch (Text.ofString "-ab-") 1 = some stop ↔
        IsGreatest {stop | ∃ w, (Text.ofString "-ab-").Spells 1 stop w ∧
          Word dashedNames (.rule [unit 'n']) w} stop) ∧
      (a.longestMatch (Text.ofString "-ab-") 1 = none ↔
        ∀ stop w, (Text.ofString "-ab-").Spells 1 stop w →
          ¬ Word dashedNames (.rule [unit 'n']) w) :=
  have hfilled : dashedNames.LiteralsFilled := by decide
  ⟨hfilled, _, rfl, longestMatch_eq_greatest_word hfilled rfl (Text.ofString "-ab-") 1⟩

end Automaton

end GrammarKit
