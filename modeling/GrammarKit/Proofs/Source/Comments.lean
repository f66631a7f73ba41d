import GrammarKit.Proofs.Source.Tiling

/-!
Where comments end. The search for the end of a comment counts the stars of a run and looks at what
follows the run. Main statement: it finds the first star that a slash follows, as a plain search
would, and cuts the body off before the run of stars that this star belongs to. So a comment ends
where it can end first, wherever it stands and whatever follows it.
-/
namespace GrammarKit.Comment

def Starred (t : Text) (first last : Nat) : Prop :=
  ∀ i, first ≤ i → i ≤ last → t[i]? = some (unit '*')

instance (t : Text) (k : Nat) : Decidable (ClosesAt t k) :=
  inferInstanceAs (Decidable (closer <+: t.drop k))

section Search

variable {offset stars start : Nat} {t : Text} {e : Ending}

/-- Behind a comment's body stand a run of stars, which the body does not share, and a slash. -/
theorem exists_body_of_endingFrom (h : endingFrom offset stars t = some e)
    (hstars : stars ≤ offset) :
    ∃ body run rest,
      List.replicate stars (unit '*') ++ t =
        body ++ (List.replicate (run + 1) (unit '*') ++ unit '/' :: rest) ∧
      body.getLast? ≠ some (unit '*') ∧ e.bodyStop = offset - stars + body.length ∧
      e.stop = e.bodyStop + run + 2 := by
  fun_induction endingFrom offset stars t with
  | case1 => cases h
  | case2 offset stars r ih =>
    obtain ⟨body, run, rest, hsplit, hlast, hbody, hstop⟩ := ih h (by omega)
    rw [List.replicate_succ', List.append_assoc] at hsplit
    exact ⟨body, run, rest, hsplit, hlast, by omega, hstop⟩
  | case3 offset stars u r _ hslash =>
    cases h
    obtain ⟨run, rfl⟩ : ∃ run, stars = run + 1 := ⟨stars - 1, by omega⟩
    refine ⟨[], run, r, by rw [hslash.1, List.nil_append], by simp, rfl, ?_⟩
    simp only
    omega
  | case4 offset stars u r hstar hslash ih =>
    obtain ⟨body, run, rest, hsplit, hlast, hbody, hstop⟩ := ih h (Nat.zero_le _)
    refine ⟨List.replicate stars (unit '*') ++ u :: body, run, rest, ?_, ?_, ?_, hstop⟩
    · rw [List.append_assoc, List.cons_append, ← hsplit]
      rfl
    · cases body with
      | nil => simpa using hstar
      | cons v body => simpa using hlast
    · rw [List.length_append, List.length_replicate, List.length_cons]
      omega

theorem exists_body (h : ending? t start = some e) :
    ∃ body run rest,
      t.drop start = body ++ (List.replicate (run + 1) (unit '*') ++ unit '/' :: rest) ∧
      body.getLast? ≠ some (unit '*') ∧ e.bodyStop = start + body.length ∧
      e.stop = e.bodyStop + run + 2 :=
  exists_body_of_endingFrom h (Nat.zero_le _)

theorem closesAt_drop {k : Nat} : ClosesAt (t.drop start) k ↔ ClosesAt t (start + k) := by
  rw [ClosesAt, ClosesAt, List.drop_drop]

theorem isLeast_stop (h : ending? t start = some e) :
    ∃ k, IsLeast {k | start ≤ k ∧ ClosesAt t k} k ∧ e.stop = k + 2 := by
  obtain ⟨k, ⟨hcloses, hbound⟩, hstop⟩ := isLeast_of_endingFrom h
  refine ⟨start + k, ⟨⟨Nat.le_add_right _ _, closesAt_drop.mp hcloses⟩, ?_⟩, hstop⟩
  rintro j ⟨hj, hclosesj⟩
  obtain ⟨i, rfl⟩ := Nat.exists_eq_add_of_le hj
  exact Nat.add_le_add_left (hbound (closesAt_drop.mpr hclosesj)) start

/-- The body ends where the last run of stars begins. -/
theorem isLeast_bodyStop (h : ending? t start = some e) {k : Nat} (hstop : e.stop = k + 2) :
    IsLeast {b | start ≤ b ∧ Starred t b k} e.bodyStop := by
  obtain ⟨body, run, rest, hsplit, hlast, hbody, hstop'⟩ := exists_body h
  have hunit : ∀ i, t[start + i]? =
      (body ++ (List.replicate (run + 1) (unit '*') ++ unit '/' :: rest))[i]? := by
    intro i
    rw [← hsplit, List.getElem?_drop]
  constructor
  · refine ⟨by omega, fun i hfirst hlast => ?_⟩
    obtain ⟨j, rfl⟩ : ∃ j, i = start + (body.length + j) := ⟨i - start - body.length, by omega⟩
    rw [hunit, List.getElem?_append_right (Nat.le_add_right _ _), Nat.add_sub_cancel_left,
      List.getElem?_append_left (by rw [List.length_replicate]; omega),
      List.getElem?_replicate_of_lt (by omega)]
  · rintro b ⟨hb, hstarred⟩
    by_contra hlt
    have hunit' := hunit (body.length - 1)
    rw [hstarred (start + (body.length - 1)) (by omega) (by omega),
      List.getElem?_append_left (by omega), ← List.getLast?_eq_getElem?] at hunit'
    exact hlast hunit'.symm

theorem ending?_eq_none_iff : ending? t start = none ↔ ∀ k, start ≤ k → ¬ ClosesAt t k := by
  constructor
  · intro h k hk
    obtain ⟨j, rfl⟩ := Nat.exists_eq_add_of_le hk
    exact fun hcloses => not_closesAt_of_endingFrom h j (closesAt_drop.mpr hcloses)
  · intro hnone
    cases hending : ending? t start with
    | none => rfl
    | some e =>
      obtain ⟨k, ⟨⟨hk, hcloses⟩, -⟩, -⟩ := isLeast_stop hending
      exact absurd hcloses (hnone k hk)

/-- The first star that a slash follows says where the comment and its body end. -/
theorem ending?_eq_some_iff : ending? t start = some e ↔
    ∃ k, IsLeast {k | start ≤ k ∧ ClosesAt t k} k ∧ e.stop = k + 2 ∧
      IsLeast {b | start ≤ b ∧ Starred t b k} e.bodyStop := by
  constructor
  · intro h
    obtain ⟨k, hleast, hstop⟩ := isLeast_stop h
    exact ⟨k, hleast, hstop, isLeast_bodyStop h hstop⟩
  · rintro ⟨k, hleast, hstop, hbody⟩
    cases hending : ending? t start with
    | none => exact absurd hleast.1.2 (ending?_eq_none_iff.mp hending k hleast.1.1)
    | some e' =>
      obtain ⟨k', hleast', hstop'⟩ := isLeast_stop hending
      obtain rfl := hleast.unique hleast'
      have hbody' := hbody.unique (isLeast_bodyStop hending hstop')
      cases e
      cases e'
      simp_all

/-- No comment ends inside of a body, and the stars before the slash are not the body's. -/
theorem slice_body (h : ending? t start = some e) :
    ¬ closer <:+: t.slice start e.bodyStop ∧
      (t.slice start e.bodyStop).getLast? ≠ some (unit '*') := by
  obtain ⟨body, run, rest, hsplit, hlast, hbody, hstop⟩ := exists_body h
  obtain ⟨k, ⟨-, hbound⟩, hstop'⟩ := isLeast_stop h
  have hslice : t.slice start e.bodyStop = body := by
    rw [hbody]
    exact (Text.slice_of_drop hsplit).1
  rw [hslice]
  refine ⟨?_, hlast⟩
  rintro ⟨before, after, rfl⟩
  have hcloses : ClosesAt t (start + before.length) := by
    rw [← closesAt_drop, hsplit]
    exact closesAt_iff.mpr ⟨before, after ++ _, List.append_assoc _ _ _, rfl⟩
  have hle := hbound ⟨Nat.le_add_right _ _, hcloses⟩
  rw [List.length_append, List.length_append] at hbody
  simp only [closer, List.length_cons, List.length_nil] at hbody
  omega

end Search

section Places

def Found.shift (offset : Nat) : Found → Found
  | comment doc body stop => comment doc body (offset + stop)
  | found => found

variable (before r : Text)

theorem endingFrom_shift (n : Nat) {offset stars : Nat} (h : stars ≤ offset) :
    endingFrom (n + offset) stars r =
      (endingFrom offset stars r).map fun e => ⟨n + e.bodyStop, n + e.stop⟩ := by
  fun_induction endingFrom offset stars r with
  | case1 => rfl
  | case2 offset stars r ih =>
    rw [endingFrom, if_pos rfl]
    exact ih (by omega)
  | case3 offset stars u r hstar hslash =>
    rw [endingFrom, if_neg hstar, if_pos hslash, Option.map_some, Nat.add_sub_assoc h,
      Nat.add_assoc]
  | case4 offset stars u r hstar hslash ih =>
    rw [endingFrom, if_neg hstar, if_neg hslash]
    exact ih (Nat.zero_le _)

theorem drop_append_add (n : Nat) : (before ++ r).drop (before.length + n) = r.drop n := by
  rw [← List.drop_drop, List.drop_left]

theorem close_shift (doc : Bool) (start : Nat) :
    close doc (before ++ r) (before.length + start : Nat) =
      (close doc r start).shift before.length := by
  unfold close ending?
  rw [Int.toNat_natCast, Int.toNat_natCast, drop_append_add, endingFrom_shift _ _ (Nat.zero_le _)]
  cases endingFrom start 0 (r.drop start) with
  | none => rfl
  | some e =>
    simp only [Option.map_some, Found.shift, Text.slice_natCast, drop_append_add,
      Nat.add_sub_add_left]

/-- A comment is found in the same way wherever it stands. -/
theorem find_append : find (before ++ r) before.length = (front r).shift before.length := by
  have hdoc : isDoc (before ++ r) before.length = isDoc r 0 := by
    have hahead : (before ++ r).ahead ((before.length : Int) + docOpener.length) =
        r.ahead (0 + docOpener.length) := by
      rw [← Int.natCast_add, Text.ahead_natCast, drop_append_add, Int.zero_add, Text.ahead_natCast]
    rw [isDoc, isDoc, hahead, Int.toNat_natCast, List.drop_left]
    rfl
  have hopener : (before ++ r).drop (before.length : Int).toNat = r.drop (0 : Int).toNat := by
    rw [Int.toNat_natCast, List.drop_left]
    rfl
  unfold front find
  rw [hopener, hdoc]
  split
  · have hwidth : ∀ start : Nat, (before.length : Int) + start = (before.length + start : Nat) :=
      fun start => (Int.natCast_add _ _).symm
    simp only [Int.zero_add, hwidth]
    exact close_shift before r (isDoc r 0) _
  · rfl

/-- Where there is room for it a terminator does not depend on what follows. -/
theorem closesAt_append {t : Text} {k : Nat} (h : k + closer.length ≤ t.length) (more : Text) :
    ClosesAt (t ++ more) k ↔ ClosesAt t k := by
  have hdrop : (t ++ more).drop k = t.drop k ++ more := List.drop_append_of_le_length (by omega)
  rw [ClosesAt, ClosesAt, hdrop]
  constructor
  · intro hcloses
    refine List.prefix_of_prefix_length_le hcloses (List.prefix_append _ _) ?_
    rw [List.length_drop]
    omega
  · exact fun hcloses => hcloses.trans (List.prefix_append _ _)

/-- A complete comment is found as it is, whatever follows. -/
theorem front_of_isComplete {c : Text} (h : IsComplete c) (more : Text) :
    ∃ doc body, front (c ++ more) = .comment doc body c.length := by
  obtain ⟨body, rfl, hfirst⟩ := h
  have hcloses : ClosesAt (body ++ closer ++ more) body.length :=
    closesAt_iff.mpr ⟨body, more, rfl, rfl⟩
  rw [List.append_assoc opener, List.append_assoc opener]
  rcases front_opener (body ++ closer ++ more) with ⟨-, hnone⟩ | ⟨k, body', hleast, hcomment⟩
  · exact absurd hcloses (hnone _)
  · have hk : k = body.length := by
      refine le_antisymm (hleast.2 hcloses) (Nat.le_of_not_lt fun hlt => hfirst k hlt ?_)
      refine (closesAt_append ?_ more).mp hleast.1
      rw [List.length_append]
      omega
    subst hk
    refine ⟨isDoc (opener ++ (body ++ closer ++ more)) 0, body', ?_⟩
    rw [hcomment, List.length_append, List.length_append, opener, closer, List.length_cons,
      List.length_cons, List.length_nil, List.length_cons, List.length_cons, List.length_nil]
    congr 1
    omega

/-- What is found as a comment, from one offset up to another, is a complete one. -/
theorem find_iff_isComplete (c more : Text) :
    (∃ doc body, find (before ++ (c ++ more)) before.length =
      .comment doc body (before.length + c.length)) ↔ IsComplete c := by
  rw [find_append]
  constructor
  · rintro ⟨doc, body, hfound⟩
    cases hfront : front (c ++ more) with
    | comment doc' body' stop =>
      rw [hfront] at hfound
      simp only [Found.shift, Found.comment.injEq] at hfound
      obtain ⟨c', more', hsplit, hlength, hcomplete, -⟩ := isComplete_of_front hfront
      obtain ⟨rfl, -⟩ := List.append_inj hsplit (by omega)
      exact hcomplete
    | none | unterminated =>
      rw [hfront] at hfound
      cases hfound
  · intro hcomplete
    obtain ⟨doc, body, hfront⟩ := front_of_isComplete hcomplete more
    exact ⟨doc, body, by rw [hfront, Found.shift]⟩

end Places

/-- Comments end at the first terminator. From any offset the search fails if and only if no star
with a slash behind it follows; otherwise the first such star ends the comment, and the body ends
with the run of stars around it left out. So there is no terminator in a body and no star at its
end, and of two comments next to each other each is found by itself. -/
theorem ends_at_first_terminator (t : Text) (start : Nat) :
    (ending? t start = none ↔ ∀ k, start ≤ k → ¬ ClosesAt t k) ∧
    (∀ e, ending? t start = some e ↔
      ∃ k, IsLeast {k | start ≤ k ∧ ClosesAt t k} k ∧ e.stop = k + 2 ∧
        IsLeast {b | start ≤ b ∧ Starred t b k} e.bodyStop) ∧
    (∀ e, ending? t start = some e → ¬ closer <:+: t.slice start e.bodyStop ∧
      (t.slice start e.bodyStop).getLast? ≠ some (unit '*')) ∧
    ∀ before c d more, t = before ++ (c ++ (d ++ more)) → IsComplete c → IsComplete d →
      (∃ doc body, find t before.length = .comment doc body (before ++ c).length) ∧
      ∃ doc body, find t (before ++ c).length = .comment doc body (before ++ c ++ d).length := by
  refine ⟨ending?_eq_none_iff, fun e => ending?_eq_some_iff, fun e => slice_body, ?_⟩
  rintro before c d more rfl hc hd
  constructor
  · rw [List.length_append]
    exact (find_iff_isComplete before c (d ++ more)).mpr hc
  · have hsecond := (find_iff_isComplete (before ++ c) d more).mpr hd
    rwa [← List.length_append, List.append_assoc before c (d ++ more)] at hsecond

/-- A comment whose last stars are not its body's, and a docstring right behind it. -/
def adjacentComments : Text := Text.ofString "/* x **//** * y */"

theorem ends_at_first_terminator_adjacent :
    (∃ k, IsLeast {k | 2 ≤ k ∧ ClosesAt adjacentComments k} k ∧ 8 = k + 2 ∧
      IsLeast {b | 2 ≤ b ∧ Starred adjacentComments b k} 5) ∧
    (¬ closer <:+: adjacentComments.slice (2 : Nat) (5 : Nat) ∧
      (adjacentComments.slice (2 : Nat) (5 : Nat)).getLast? ≠ some (unit '*')) ∧
    (∃ doc body, find adjacentComments (0 : Nat) = .comment doc body 8) ∧
    ∃ doc body, find adjacentComments (8 : Nat) = .comment doc body 18 := by
  have hending : ending? adjacentComments 2 = some ⟨5, 8⟩ := by decide +kernel
  obtain ⟨-, hsome, hslice, hadjacent⟩ := ends_at_first_terminator adjacentComments 2
  have hfirst : IsComplete (Text.ofString "/* x **/") :=
    ⟨Text.ofString " x *", by decide +kernel, by decide +kernel⟩
  have hsecond : IsComplete (Text.ofString "/** * y */") :=
    ⟨Text.ofString "* * y ", by decide +kernel, by decide +kernel⟩
  exact ⟨(hsome ⟨5, 8⟩).mp hending, hslice ⟨5, 8⟩ hending,
    hadjacent [] _ _ [] (by decide +kernel) hfirst hsecond⟩

end GrammarKit.Comment
