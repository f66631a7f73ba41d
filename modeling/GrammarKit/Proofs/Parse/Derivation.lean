import GrammarKit.Parse.Parser
import GrammarKit.Proofs.Automaton.LongestMatch
import GrammarKit.Proofs.Rule.Variants

/-!
What a part of a grammar comes to at a cursor, by the rules of ordered choice alone. Nothing here
keeps track of the rules that are active or of how deep they are nested: a part has an outcome if a
derivation ends with it. A derivation is a tree and has a size, and of two derivations for the same
part and cursor both end with the same outcome.
-/
namespace GrammarKit

/-- The longest word of a rule that stands in a text at a cursor ends at `stop`. -/
def Text.LongestWord (rs : RuleSet) (t name : Text) (cursor stop : Nat) : Prop :=
  IsGreatest {stop : Nat | ∃ w, t.Spells cursor stop w ∧ Word rs (.rule name) w} stop

theorem Text.spells_drop {t : Text} {cursor stop : Nat} {w : List CodePoint} :
    t.Spells cursor stop w ↔ ∃ n, stop = cursor + n ∧ Reads (t.drop cursor) w n := by
  rw [spells_iff_reads, ahead_natCast]
  constructor
  · intro hreads
    obtain ⟨n, hstop, hread⟩ := hreads
    exact ⟨n, by omega, hread⟩
  · intro hreads
    obtain ⟨n, rfl, hread⟩ := hreads
    exact ⟨n, by omega, hread⟩

namespace Text.LongestWord

variable {rs : RuleSet} {t name : Text} {cursor stop : Nat}

theorem unique {stop' : Nat} (h : LongestWord rs t name cursor stop)
    (h' : LongestWord rs t name cursor stop') : stop = stop' :=
  IsGreatest.unique h h'

theorem le (h : LongestWord rs t name cursor stop) : cursor ≤ stop := by
  obtain ⟨w, hspell, -⟩ := h.1
  obtain ⟨n, rfl, -⟩ := spells_drop.mp hspell
  omega

/-- Nothing is read beyond the end of a text. -/
theorem le_length (h : LongestWord rs t name cursor stop) : stop ≤ max cursor t.length := by
  obtain ⟨w, hspell, -⟩ := h.1
  obtain ⟨n, rfl, hread⟩ := spells_drop.mp hspell
  have hlength := hread.le_length
  rw [List.length_drop] at hlength
  omega

end Text.LongestWord

/-- The automaton of a rule finds the longest word of the rule at a cursor. -/
theorem Automaton.longestAt_drop {rs : RuleSet} (hfilled : rs.LiteralsFilled) {name : Text}
    {a : Automaton} (h : ofRule rs name = .ok a) (t : Text) (cursor : Nat) :
    (∃ stop, t.LongestWord rs name cursor stop ∧ a.longestAt cursor (t.drop cursor) = some stop) ∨
      ((∀ stop, ¬ t.LongestWord rs name cursor stop) ∧
        a.longestAt cursor (t.drop cursor) = none) := by
  rcases a.longestAt_cases cursor (t.drop cursor) with ⟨n, hn, hrun⟩ | ⟨hnone, hrun⟩
  · refine Or.inl ⟨cursor + n, ⟨?_, ?_⟩, hrun⟩
    · obtain ⟨w, hread, hw⟩ := (mem_ends_start hfilled h).mp hn.1
      exact ⟨w, Text.spells_drop.mpr ⟨n, rfl, hread⟩, hw⟩
    · intro stop hspelled
      obtain ⟨w, hspell, hw⟩ := hspelled
      obtain ⟨k, rfl, hread⟩ := Text.spells_drop.mp hspell
      have hk := hn.2 ((mem_ends_start hfilled h).mpr ⟨w, hread, hw⟩)
      omega
  · refine Or.inr ⟨?_, hrun⟩
    intro stop hgreatest
    obtain ⟨⟨w, hspell, hw⟩, -⟩ := hgreatest
    obtain ⟨k, -, hread⟩ := Text.spells_drop.mp hspell
    have hk := (mem_ends_start hfilled h).mpr ⟨w, hread, hw⟩
    exact Set.eq_empty_iff_forall_notMem.mp hnone k hk

/-- Where trees stand that were found from a position on: from the start of the first of them to the
end of the last, and at the position itself if there is none. -/
inductive Tree.SpannedBy (position : Int) : List Tree → Span → Prop where
  | nothing : SpannedBy position [] ⟨position, position⟩
  | trees {trees : List Tree} {first last : Tree} (hfirst : trees.head? = some first)
      (hlast : trees.getLast? = some last) :
      SpannedBy position trees ⟨first.span.start, last.span.stop⟩

theorem Tree.spannedBy_iff {position : Int} {trees : List Tree} {span : Span} :
    SpannedBy position trees span ↔ span = spanOf trees position := by
  cases trees with
  | nil =>
    constructor
    · intro h
      cases h with
      | nothing => rfl
      | trees hfirst => cases hfirst
    · rintro rfl
      exact .nothing
  | cons t rest =>
    have hlast : (t :: rest).getLast? = some ((t :: rest).getLast (by simp)) :=
      List.getLast?_eq_some_getLast _
    have hspan : spanOf (t :: rest) position =
        ⟨t.span.start, ((t :: rest).getLast (by simp)).span.stop⟩ := by
      rw [spanOf, hlast]
      rfl
    rw [hspan]
    constructor
    · intro h
      cases h with
      | trees hfirst hlast' =>
        cases hfirst
        rw [hlast] at hlast'
        cases hlast'
        rfl
    · rintro rfl
      exact .trees rfl hlast

namespace Session

/-- The token that the symbol of a token rule takes at a cursor, and the cursor after it: on
characters the longest word of the rule, on tokens one token of that name. -/
inductive Takes (s : Session) (name : Text) (cursor : Nat) : Token → Nat → Prop where
  | longest {t : Text} {stop : Nat} (hinput : s.input = .text t)
      (h : t.LongestWord s.rules name cursor stop) :
      Takes s name cursor ⟨name, (t.drop cursor).take (stop - cursor), ⟨cursor, stop⟩⟩ stop
  | listed {ts : Array Token} {token : Token} (hinput : s.input = .tokens ts)
      (h : ts[cursor]? = some token) (hname : token.name = name) :
      Takes s name cursor token (cursor + 1)

/-- One match of the whitespace rule. There is none between tokens. -/
def Blank (s : Session) (cursor stop : Nat) : Prop :=
  ∃ t r, s.input = .text t ∧ s.rules.whitespace = some r ∧
    t.LongestWord s.rules r.name cursor stop

inductive Skips (s : Session) : Nat → Nat → Prop where
  | done {cursor : Nat} (h : ∀ stop, s.Blank cursor stop → ¬ cursor < stop) : Skips s cursor cursor
  | more {cursor middle stop : Nat} (h : s.Blank cursor middle) (hlt : cursor < middle)
      (rest : Skips s middle stop) : Skips s cursor stop

/-- How a part of a production comes to an outcome at a cursor. The outcome `none` is a failure. -/
inductive Derivation (s : Session) : Phrase → Nat → Outcome → Type where
  /-- A rule whose alternative after those in `before` is the first to match makes one node. It has
  the name of the rule, the tag of the alternative and all that the alternative found. -/
  | rule {name : Text} {r : Rule} {before after : Alternation} {a : Alternative (Item Singular)}
      {cursor : Nat} {m : Match} {span : Span} (hget : s.rules.get? name = some r)
      (hsplit : r.alternatives = before ++ a :: after)
      (hbefore : Derivation s (.choice before) cursor none)
      (h : Derivation s (.body a.body) cursor (some m))
      (hspan : Tree.SpannedBy (s.input.position cursor) m.children span) :
      Derivation s (.rule name) cursor
        (some ⟨m.stop, [.node name (a.tag name before.length) m.children span]⟩)
  | ruleFails {name : Text} {r : Rule} {cursor : Nat} (hget : s.rules.get? name = some r)
      (h : Derivation s (.choice r.alternatives) cursor none) :
      Derivation s (.rule name) cursor none
  | choiceFails {cursor : Nat} : Derivation s (.choice []) cursor none
  | choiceFirst {a : Alternative (Item Singular)} {rest : Alternation} {cursor : Nat} {m : Match}
      (h : Derivation s (.body a.body) cursor (some m)) :
      Derivation s (.choice (a :: rest)) cursor (some m)
  | choiceNext {a : Alternative (Item Singular)} {rest : Alternation} {cursor : Nat} {o : Outcome}
      (h : Derivation s (.body a.body) cursor none) (hrest : Derivation s (.choice rest) cursor o) :
      Derivation s (.choice (a :: rest)) cursor o
  | bodyEnd {cursor : Nat} : Derivation s (.body []) cursor (some ⟨cursor, []⟩)
  | bodyFails {i : Item Singular} {rest : Body} {cursor : Nat}
      (h : Derivation s (.item i) cursor none) : Derivation s (.body (i :: rest)) cursor none
  | bodyBreaks {i : Item Singular} {rest : Body} {cursor : Nat} {m : Match}
      (h : Derivation s (.item i) cursor (some m))
      (hrest : Derivation s (.body rest) m.stop none) : Derivation s (.body (i :: rest)) cursor none
  | bodyGoes {i : Item Singular} {rest : Body} {cursor : Nat} {m n : Match}
      (h : Derivation s (.item i) cursor (some m))
      (hrest : Derivation s (.body rest) m.stop (some n)) :
      Derivation s (.body (i :: rest)) cursor (some ⟨n.stop, m.children ++ n.children⟩)
  | one {x : Singular} {cursor : Nat} {o : Outcome} (h : Derivation s (.singular x) cursor o) :
      Derivation s (.item ⟨x, .one⟩) cursor o
  | absent {x : Singular} {cursor : Nat} (h : Derivation s (.singular x) cursor none) :
      Derivation s (.item ⟨x, .maybe⟩) cursor (some ⟨cursor, []⟩)
  | present {x : Singular} {cursor : Nat} {m : Match}
      (h : Derivation s (.singular x) cursor (some m)) :
      Derivation s (.item ⟨x, .maybe⟩) cursor (some m)
  | any {x : Singular} {cursor : Nat} {o : Outcome} (h : Derivation s (.row x) cursor o) :
      Derivation s (.item ⟨x, .any⟩) cursor o
  | manyFails {x : Singular} {cursor : Nat} (h : Derivation s (.singular x) cursor none) :
      Derivation s (.item ⟨x, .many⟩) cursor none
  | many {x : Singular} {cursor : Nat} {m : Match} {o : Outcome}
      (hfirst : Derivation s (.singular x) cursor (some m)) (h : Derivation s (.row x) cursor o) :
      Derivation s (.item ⟨x, .many⟩) cursor o
  | rowEnd {x : Singular} {cursor : Nat} (h : Derivation s (.singular x) cursor none) :
      Derivation s (.row x) cursor (some ⟨cursor, []⟩)
  /-- A match that does not get ahead is the last one, and what it found is kept. -/
  | rowStays {x : Singular} {cursor : Nat} {m : Match}
      (h : Derivation s (.singular x) cursor (some m)) (hstop : ¬ cursor < m.stop) :
      Derivation s (.row x) cursor (some m)
  | rowGoes {x : Singular} {cursor : Nat} {m n : Match}
      (h : Derivation s (.singular x) cursor (some m)) (hlt : cursor < m.stop)
      (hrest : Derivation s (.row x) m.stop (some n)) :
      Derivation s (.row x) cursor (some ⟨n.stop, m.children ++ n.children⟩)
  | groupFails {alternatives : Alternation} {cursor : Nat}
      (h : Derivation s (.choice alternatives) cursor none) :
      Derivation s (.singular (.group alternatives)) cursor none
  | group {alternatives : Alternation} {cursor stop : Nat} {m : Match}
      (h : Derivation s (.choice alternatives) cursor (some m)) (hskip : s.Skips m.stop stop) :
      Derivation s (.singular (.group alternatives)) cursor (some ⟨stop, m.children⟩)
  | callFails {name : Text} {span : Span} {cursor : Nat}
      (hproduction : s.rules.isProduction name = true)
      (h : Derivation s (.rule name) cursor none) :
      Derivation s (.singular (.symbol name span)) cursor none
  | call {name : Text} {span : Span} {cursor stop : Nat} {m : Match}
      (hproduction : s.rules.isProduction name = true)
      (h : Derivation s (.rule name) cursor (some m)) (hskip : s.Skips m.stop stop) :
      Derivation s (.singular (.symbol name span)) cursor (some ⟨stop, m.children⟩)
  | tokenFails {name : Text} {span : Span} {cursor : Nat}
      (hlexical : s.rules.isProduction name = false)
      (h : ∀ token stop, ¬ s.Takes name cursor token stop) :
      Derivation s (.singular (.symbol name span)) cursor none
  | token {name : Text} {span : Span} {cursor middle stop : Nat} {token : Token}
      (hlexical : s.rules.isProduction name = false) (h : s.Takes name cursor token middle)
      (hskip : s.Skips middle stop) :
      Derivation s (.singular (.symbol name span)) cursor (some ⟨stop, [.token token]⟩)

def Derives (s : Session) (p : Phrase) (cursor : Nat) (o : Outcome) : Prop :=
  Nonempty (s.Derivation p cursor o)

variable {s : Session}

theorem takes_text {t : Text} (hinput : s.input = .text t) {name : Text} {cursor stop : Nat}
    {token : Token} : s.Takes name cursor token stop ↔ t.LongestWord s.rules name cursor stop ∧
      token = ⟨name, (t.drop cursor).take (stop - cursor), ⟨cursor, stop⟩⟩ := by
  constructor
  · intro h
    cases h with
    | longest hinput' h =>
      rw [hinput] at hinput'
      cases hinput'
      exact ⟨h, rfl⟩
    | listed hinput' _ _ =>
      rw [hinput] at hinput'
      cases hinput'
  · intro htakes
    obtain ⟨h, rfl⟩ := htakes
    exact .longest hinput h

theorem takes_tokens {ts : Array Token} (hinput : s.input = .tokens ts) {name : Text}
    {cursor stop : Nat} {token : Token} : s.Takes name cursor token stop ↔
      ts[cursor]? = some token ∧ token.name = name ∧ stop = cursor + 1 := by
  constructor
  · intro h
    cases h with
    | longest hinput' _ =>
      rw [hinput] at hinput'
      cases hinput'
    | listed hinput' h hname =>
      rw [hinput] at hinput'
      cases hinput'
      exact ⟨h, hname, rfl⟩
  · intro htakes
    obtain ⟨h, hname, rfl⟩ := htakes
    exact .listed hinput h hname

namespace Takes

variable {name : Text} {cursor stop : Nat} {token : Token}

theorem unique (h : s.Takes name cursor token stop) {token' : Token} {stop' : Nat}
    (h' : s.Takes name cursor token' stop') : token = token' ∧ stop = stop' := by
  cases hinput : s.input with
  | text t =>
    obtain ⟨hword, rfl⟩ := (takes_text hinput).mp h
    obtain ⟨hword', rfl⟩ := (takes_text hinput).mp h'
    rw [hword.unique hword']
    exact ⟨rfl, rfl⟩
  | tokens ts =>
    obtain ⟨hget, -, rfl⟩ := (takes_tokens hinput).mp h
    obtain ⟨hget', -, rfl⟩ := (takes_tokens hinput).mp h'
    rw [hget] at hget'
    cases hget'
    exact ⟨rfl, rfl⟩

theorem bounds (h : s.Takes name cursor token stop) :
    cursor ≤ stop ∧ stop ≤ max cursor s.input.length := by
  cases hinput : s.input with
  | text t =>
    obtain ⟨hword, -⟩ := (takes_text hinput).mp h
    exact ⟨hword.le, hword.le_length⟩
  | tokens ts =>
    obtain ⟨hget, -, rfl⟩ := (takes_tokens hinput).mp h
    obtain ⟨hlt, -⟩ := Array.getElem?_eq_some_iff.mp hget
    simp only [Input.length]
    omega

end Takes

theorem blank_text {t : Text} (hinput : s.input = .text t) {cursor stop : Nat} :
    s.Blank cursor stop ↔
      ∃ r, s.rules.whitespace = some r ∧ t.LongestWord s.rules r.name cursor stop := by
  constructor
  · intro hblank
    obtain ⟨t', r, hinput', hr, hword⟩ := hblank
    rw [hinput] at hinput'
    cases hinput'
    exact ⟨r, hr, hword⟩
  · intro hblank
    obtain ⟨r, hr, hword⟩ := hblank
    exact ⟨t, r, hinput, hr, hword⟩

theorem not_blank_tokens {ts : Array Token} (hinput : s.input = .tokens ts) {cursor stop : Nat} :
    ¬ s.Blank cursor stop := by
  intro hblank
  obtain ⟨t, r, hinput', -⟩ := hblank
  rw [hinput] at hinput'
  cases hinput'

theorem Blank.unique {cursor stop stop' : Nat} (h : s.Blank cursor stop)
    (h' : s.Blank cursor stop') : stop = stop' := by
  obtain ⟨t, r, hinput, hr, hword⟩ := h
  obtain ⟨t', r', hinput', hr', hword'⟩ := h'
  rw [hinput] at hinput'
  cases hinput'
  rw [hr] at hr'
  cases hr'
  exact hword.unique hword'

namespace Skips

variable {cursor stop : Nat}

theorem unique (h : s.Skips cursor stop) : ∀ {stop'}, s.Skips cursor stop' → stop = stop' := by
  induction h with
  | done hdone =>
    intro stop' h'
    cases h' with
    | done => rfl
    | more h hlt _ => exact absurd hlt (hdone _ h)
  | more h hlt _ ih =>
    intro stop' h'
    cases h' with
    | done hdone => exact absurd hlt (hdone _ h)
    | more h' hlt' rest =>
      cases h.unique h'
      exact ih rest

theorem bounds (h : s.Skips cursor stop) : cursor ≤ stop ∧ stop ≤ max cursor s.input.length := by
  induction h with
  | done => omega
  | more h hlt _ ih =>
    obtain ⟨t, r, hinput, -, hword⟩ := h
    have hlength := hword.le_length
    rw [hinput] at ih ⊢
    simp only [Input.length] at ih ⊢
    omega

end Skips

namespace Derivation

/-- A match neither goes back nor beyond the end of the input. -/
theorem bounds {p : Phrase} {cursor : Nat} {o : Outcome} (h : s.Derivation p cursor o) :
    ∀ m, o = some m → cursor ≤ m.stop ∧ m.stop ≤ max cursor s.input.length := by
  induction h with
  | rule _ _ _ _ _ _ ih =>
    rintro _ ⟨⟩
    have h₁ := ih _ rfl
    exact h₁
  | ruleFails | choiceFails | bodyFails | bodyBreaks | manyFails | groupFails | callFails
  | tokenFails => simp
  | choiceFirst _ ih => exact ih
  | choiceNext _ _ _ ih => exact ih
  | bodyEnd =>
    rintro _ ⟨⟩
    simp
  | bodyGoes _ _ ih ihrest =>
    rintro _ ⟨⟩
    have h₁ := ih _ rfl
    have h₂ := ihrest _ rfl
    simp only
    omega
  | one _ ih => exact ih
  | absent =>
    rintro _ ⟨⟩
    simp
  | present _ ih => exact ih
  | any _ ih => exact ih
  | many _ _ _ ih => exact ih
  | rowEnd =>
    rintro _ ⟨⟩
    simp
  | rowStays _ _ ih => exact ih
  | rowGoes _ _ _ ih ihrest =>
    rintro _ ⟨⟩
    have h₁ := ih _ rfl
    have h₂ := ihrest _ rfl
    simp only
    omega
  | group _ hskip ih =>
    rintro _ ⟨⟩
    have h₁ := ih _ rfl
    have h₂ := hskip.bounds
    simp only
    omega
  | call _ _ hskip ih =>
    rintro _ ⟨⟩
    have h₁ := ih _ rfl
    have h₂ := hskip.bounds
    simp only
    omega
  | token _ h hskip =>
    rintro _ ⟨⟩
    have h₁ := h.bounds
    have h₂ := hskip.bounds
    simp only
    omega

/-- The first alternative that matches decides, whatever comes after it. -/
def choiceSplit {before after : Alternation} {a : Alternative (Item Singular)} {cursor : Nat}
    {m : Match} (h : s.Derivation (.body a.body) cursor (some m)) :
    s.Derivation (.choice before) cursor none →
      s.Derivation (.choice (before ++ a :: after)) cursor (some m) :=
  match before with
  | [] => fun _ => .choiceFirst h
  | _ :: _ => fun hbefore => match hbefore with
    | .choiceNext hfirst hrest => .choiceNext hfirst (choiceSplit h hrest)

/-- When all alternatives fail, each of them does, by a smaller derivation. -/
theorem fails_of_mem {alternatives : Alternation} {a : Alternative (Item Singular)} {cursor : Nat}
    (ha : a ∈ alternatives) (h : s.Derivation (.choice alternatives) cursor none) :
    ∃ h' : s.Derivation (.body a.body) cursor none, sizeOf h' < sizeOf h := by
  induction alternatives with
  | nil => cases ha
  | cons b rest ih =>
    cases h with
    | choiceNext hfirst hrest =>
      rcases List.mem_cons.mp ha with rfl | ha
      · refine ⟨hfirst, ?_⟩
        simp only [choiceNext.sizeOf_spec]
        omega
      · obtain ⟨h', hsize⟩ := ih ha hrest
        refine ⟨h', ?_⟩
        simp only [choiceNext.sizeOf_spec]
        omega

/-- Two ways to match a rule are about the same alternative, if the first of them can neither fail
at its alternative nor match an earlier one. -/
theorem split_unique {before before' after after' : Alternation}
    {a a' : Alternative (Item Singular)} {cursor : Nat} {m' : Match}
    (hsplit : before ++ a :: after = before' ++ a' :: after')
    (hmatches : s.Derivation (.body a.body) cursor none → False)
    (hfails : ∀ m, s.Derivation (.choice before) cursor (some m) → False)
    (hbefore' : s.Derivation (.choice before') cursor none)
    (h' : s.Derivation (.body a'.body) cursor (some m')) : before = before' ∧ a = a' := by
  rcases List.append_eq_append_iff.mp hsplit with ⟨l, rfl, hrest⟩ | ⟨l, rfl, hrest⟩
  · cases l with
    | nil =>
      cases hrest
      exact ⟨(List.append_nil before).symm, rfl⟩
    | cons b l =>
      cases hrest
      obtain ⟨hfailed, -⟩ := fails_of_mem (a := a) (by simp) hbefore'
      exact (hmatches hfailed).elim
  · cases l with
    | nil =>
      cases hrest
      exact ⟨List.append_nil before', rfl⟩
    | cons b l =>
      cases hrest
      exact (hfails m' (choiceSplit h' hbefore')).elim

/-- A part has one outcome at a cursor. -/
theorem unique {p : Phrase} {cursor : Nat} {o : Outcome} (h : s.Derivation p cursor o) :
    ∀ {o'}, s.Derivation p cursor o' → o = o' := by
  induction h with
  | @rule name r before after a cursor m span hget hsplit hbefore h hspan ihbefore ih =>
    intro o' h'
    cases h' with
    | rule hget' hsplit' hbefore' h' hspan' =>
      rw [hget] at hget'
      cases hget'
      obtain ⟨rfl, rfl⟩ := split_unique (hsplit.symm.trans hsplit')
        (fun hfailed => by cases ih hfailed) (fun m hmatched => by cases ihbefore hmatched)
        hbefore' h'
      cases ih h'
      rw [Tree.spannedBy_iff.mp hspan, Tree.spannedBy_iff.mp hspan']
    | ruleFails hget' h' =>
      rw [hget] at hget'
      cases hget'
      obtain ⟨hfails, -⟩ := fails_of_mem (a := a) (by simp [hsplit]) h'
      cases ih hfails
  | ruleFails hget h ih =>
    intro o' h'
    cases h' with
    | rule hget' hsplit' hbefore' h' hspan' =>
      rw [hget] at hget'
      cases hget'
      rw [hsplit'] at ih
      cases ih (choiceSplit h' hbefore')
    | ruleFails => rfl
  | choiceFails =>
    intro o' h'
    cases h'
    rfl
  | choiceFirst h ih =>
    intro o' h'
    cases h' with
    | choiceFirst h' => exact ih h'
    | choiceNext h' _ => cases ih h'
  | choiceNext h hrest ih ihrest =>
    intro o' h'
    cases h' with
    | choiceFirst h' => cases ih h'
    | choiceNext _ hrest' => exact ihrest hrest'
  | bodyEnd =>
    intro o' h'
    cases h'
    rfl
  | bodyFails h ih =>
    intro o' h'
    cases h' with
    | bodyFails | bodyBreaks => rfl
    | bodyGoes h' _ => cases ih h'
  | bodyBreaks h hrest ih ihrest =>
    intro o' h'
    cases h' with
    | bodyFails | bodyBreaks => rfl
    | bodyGoes h' hrest' =>
      cases ih h'
      cases ihrest hrest'
  | bodyGoes h hrest ih ihrest =>
    intro o' h'
    cases h' with
    | bodyFails h' => cases ih h'
    | bodyBreaks h' hrest' =>
      cases ih h'
      cases ihrest hrest'
    | bodyGoes h' hrest' =>
      cases ih h'
      cases ihrest hrest'
      rfl
  | one h ih =>
    intro o' h'
    cases h' with
    | one h' => exact ih h'
  | absent h ih =>
    intro o' h'
    cases h' with
    | absent => rfl
    | present h' => cases ih h'
  | present h ih =>
    intro o' h'
    cases h' with
    | absent h' => cases ih h'
    | present h' => exact ih h'
  | any h ih =>
    intro o' h'
    cases h' with
    | any h' => exact ih h'
  | manyFails h ih =>
    intro o' h'
    cases h' with
    | manyFails => rfl
    | many hfirst' _ => cases ih hfirst'
  | many hfirst h ihfirst ih =>
    intro o' h'
    cases h' with
    | manyFails h' => cases ihfirst h'
    | many _ h' => exact ih h'
  | rowEnd h ih =>
    intro o' h'
    cases h' with
    | rowEnd => rfl
    | rowStays h' | rowGoes h' => cases ih h'
  | rowStays h hstop ih =>
    intro o' h'
    cases h' with
    | rowEnd h' => cases ih h'
    | rowStays h' => exact ih h'
    | rowGoes h' hlt _ =>
      cases ih h'
      exact absurd hlt hstop
  | rowGoes h hlt hrest ih ihrest =>
    intro o' h'
    cases h' with
    | rowEnd h' => cases ih h'
    | rowStays h' hstop =>
      cases ih h'
      exact absurd hlt hstop
    | rowGoes h' _ hrest' =>
      cases ih h'
      cases ihrest hrest'
      rfl
  | groupFails h ih =>
    intro o' h'
    cases h' with
    | groupFails => rfl
    | group h' => cases ih h'
  | group h hskip ih =>
    intro o' h'
    cases h' with
    | groupFails h' => cases ih h'
    | group h' hskip' =>
      cases ih h'
      rw [hskip.unique hskip']
  | callFails hproduction h ih =>
    intro o' h'
    cases h' with
    | callFails | tokenFails => rfl
    | call _ h' => cases ih h'
    | token hlexical => simp [hproduction] at hlexical
  | call hproduction h hskip ih =>
    intro o' h'
    cases h' with
    | callFails _ h' => cases ih h'
    | call _ h' hskip' =>
      cases ih h'
      rw [hskip.unique hskip']
    | tokenFails hlexical | token hlexical => simp [hproduction] at hlexical
  | tokenFails hlexical h =>
    intro o' h'
    cases h' with
    | callFails | tokenFails => rfl
    | call hproduction => simp [hlexical] at hproduction
    | token _ h' => exact absurd h' (h _ _)
  | token hlexical h hskip =>
    intro o' h'
    cases h' with
    | callFails hproduction | call hproduction => simp [hlexical] at hproduction
    | tokenFails _ h' => exact absurd h (h' _ _)
    | token _ h' hskip' =>
      obtain ⟨rfl, rfl⟩ := h.unique h'
      rw [hskip.unique hskip']

end Derivation

end Session

end GrammarKit
