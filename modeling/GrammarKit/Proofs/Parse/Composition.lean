import GrammarKit.Proofs.Parse.Soundness

/-!
How the trees of a derivation are put together. The trees that a part finds between two cursors come
from tokens, from nodes of rules and from rows of parts one after the other, and white space only
moves the cursor. A property of trees and cursors that is kept in these ways holds of every match,
whatever alternatives were given up on the way, and so it holds of the tree that a parse ends with.
-/
namespace GrammarKit

namespace Session

variable {s : Session}

/-- A property of the trees between two cursors that is kept where trees are put together. -/
structure Composes (s : Session) (P : Nat → Nat → List Tree → Prop) : Prop where
  nothing : ∀ cursor, P cursor cursor []
  skip : ∀ {cursor stop}, s.Skips cursor stop → P cursor stop []
  token : ∀ {name cursor token stop}, s.Takes name cursor token stop →
    P cursor stop [.token token]
  append : ∀ {cursor middle stop first rest}, P cursor middle first → P middle stop rest →
    P cursor stop (first ++ rest)
  node : ∀ {name r before a after cursor m span}, s.rules.isProduction name = true →
    s.rules.get? name = some r → r.alternatives = before ++ a :: after →
    s.Derives (.body a.body) cursor (some m) →
    Tree.SpannedBy (s.input.position cursor) m.children span → P cursor m.stop m.children →
    P cursor m.stop [.node name (a.tag name before.length) m.children span]

/-- What is kept where trees are put together holds of every match. -/
theorem Derivation.composed {P : Nat → Nat → List Tree → Prop} (hP : s.Composes P) {p : Phrase}
    {cursor : Nat} {o : Outcome} (h : s.Derivation p cursor o) :
    (∀ name, p = .rule name → s.rules.isProduction name = true) →
      ∀ m, o = some m → P cursor m.stop m.children := by
  have hsettle : ∀ {cursor middle stop children}, P cursor middle children →
      s.Skips middle stop → P cursor stop children := by
    intro cursor middle stop children hchildren hskip
    have hall := hP.append hchildren (hP.skip hskip)
    rwa [List.append_nil] at hall
  induction h with
  | rule hget hsplit _ h hspan _ ih =>
    rintro hknown _ ⟨⟩
    exact hP.node (hknown _ rfl) hget hsplit ⟨h⟩ hspan (ih nofun _ rfl)
  | ruleFails | choiceFails | bodyFails | bodyBreaks | manyFails | groupFails | callFails
  | tokenFails => exact fun _ => nofun
  | choiceFirst _ ih => exact fun _ => ih nofun
  | choiceNext _ _ _ ih => exact fun _ => ih nofun
  | bodyEnd | absent | rowEnd =>
    rintro - _ ⟨⟩
    exact hP.nothing _
  | bodyGoes _ _ ih ihrest =>
    rintro - _ ⟨⟩
    exact hP.append (ih nofun _ rfl) (ihrest nofun _ rfl)
  | one _ ih => exact fun _ => ih nofun
  | present _ ih => exact fun _ => ih nofun
  | any _ ih => exact fun _ => ih nofun
  | many _ _ _ ih => exact fun _ => ih nofun
  | rowStays _ _ ih => exact fun _ => ih nofun
  | rowGoes _ _ _ ih ihrest =>
    rintro - _ ⟨⟩
    exact hP.append (ih nofun _ rfl) (ihrest nofun _ rfl)
  | group _ hskip ih =>
    rintro - _ ⟨⟩
    have hmatch := ih nofun _ rfl
    exact hsettle hmatch hskip
  | call hproduction _ hskip ih =>
    rintro - _ ⟨⟩
    have hmatch := ih (by rintro _ ⟨⟩; exact hproduction) _ rfl
    exact hsettle hmatch hskip
  | token _ h hskip =>
    rintro - _ ⟨⟩
    exact hsettle (hP.token h) hskip

end Session

namespace Parser

variable {p : Parser} {limit : Nat} {start : Text} {input : Input} {allowTrailing : Bool}

/-- A match that is judged to be good is the node it found, and it is all of the input unless the
rest is allowed. -/
theorem judge_eq_ok {farthest : Option Farthest} {m : Match} {root : Tree}
    (h : judge start input allowTrailing farthest m = .ok root) :
    (allowTrailing = false → input.length ≤ m.stop) ∧ ∃ rest, m.children = root :: rest := by
  unfold judge at h
  split at h
  · split at h
    · cases h
    · cases h
  · next hrest =>
    refine ⟨?_, ?_⟩
    · rintro rfl
      by_contra hlt
      exact hrest ⟨by omega, by simp⟩
    · split at h
      · next hchildren =>
        cases h
        exact ⟨_, hchildren⟩
      · cases h

/-- A match that is judged to be bad leaves input behind. The farthest failure is to blame if the
match does not reach beyond it. -/
theorem judge_eq_error {farthest : Option Farthest} {m : Match} {e : ParseError}
    (h : judge start input allowTrailing farthest m = .error (.parse e)) :
    m.stop < input.length ∧
      ((∃ f, farthest = some f ∧ m.stop ≤ f.cursor ∧ e = noAlternativeMatched input farthest) ∨
        ((∀ f, farthest = some f → f.cursor < m.stop) ∧
          e = .trailingInput (input.position m.stop) start)) := by
  unfold judge at h
  split at h
  · next hrest =>
    refine ⟨hrest.1, ?_⟩
    split at h
    · next hany =>
      obtain ⟨f, hf, hle⟩ := Option.any_eq_true _ _ |>.mp hany
      cases h
      exact Or.inl ⟨f, hf, of_decide_eq_true hle, rfl⟩
    · next hany =>
      cases h
      refine Or.inr ⟨?_, rfl⟩
      intro f hf
      rw [hf] at hany
      simp only [Option.any_some, decide_eq_true_eq] at hany
      omega
  · split at h
    · cases h
    · cases h

/-- The tree of a parse is what the start rule derives at the first cursor after white space. -/
theorem derives_of_parse (hp : p.rules.Tagged p.variants) {root : Tree}
    (h : (p.parse limit start input allowTrailing).1 = .ok root) :
    p.rules.isProduction start = true ∧ ∃ cursor stop, (p.session input).Skips 0 cursor ∧
      (p.session input).Derives (.rule start) cursor (some ⟨stop, [root]⟩) ∧
      (allowTrailing = false → stop = input.length) := by
  unfold parse at h
  by_cases hstart : p.rules.isProduction start = true
  · refine ⟨hstart, ?_⟩
    rw [if_pos hstart] at h
    obtain ⟨cursor, hskip, hskips⟩ := (p.session input).skip_cases hp.toSound 0
    have hrule := (p.session input).rule_sound hp limit [] start hstart cursor
    rw [run_attempt hskip] at h
    cases hrun : ((p.session input).rule limit [] start cursor).run.run Progress.initial with
    | mk result progress =>
      rw [hrun] at h
      obtain halt | o := result
      · cases h
      · cases o with
        | none => cases h
        | some m =>
          obtain ⟨hderives⟩ := hrule.answer hrun
          obtain ⟨hend, rest, hchildren⟩ := judge_eq_ok h
          have hbounds := hderives.bounds m rfl
          have hcursor := hskips.bounds
          refine ⟨cursor, m.stop, hskips, ?_, ?_⟩
          · cases hderives with
            | rule hget hsplit hbefore hmatch hspan =>
              cases hchildren
              exact ⟨.rule hget hsplit hbefore hmatch hspan⟩
          · intro htrailing
            have hlength := hend htrailing
            have hinput : (p.session input).input.length = input.length := rfl
            omega
  · rw [if_neg hstart] at h
    cases h

/-- A property that is kept where trees are put together holds of the tree of a parse. -/
theorem composed_of_parse (hp : p.rules.Tagged p.variants) {P : Nat → Nat → List Tree → Prop}
    (hP : (p.session input).Composes P) {root : Tree}
    (h : (p.parse limit start input allowTrailing).1 = .ok root) :
    ∃ stop, P 0 stop [root] ∧ (allowTrailing = false → stop = input.length) := by
  obtain ⟨hstart, cursor, stop, hskips, ⟨hderives⟩, hend⟩ := derives_of_parse hp h
  have hroot := hderives.composed hP (fun name hname => by cases hname; exact hstart) _ rfl
  exact ⟨stop, hP.append (hP.skip hskips) hroot, hend⟩

end Parser

end GrammarKit
