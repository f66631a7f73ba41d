import GrammarKit.Proofs.Parse.Exactness
import GrammarKit.Proofs.Parse.Failures
import GrammarKit.Proofs.Parse.Farthest

/-!
What a parse reports of its failed attempts. The farthest failure is brought up to date with every
failure that goes on record, so at any time it says where the farthest of them are and names each of
those once. Main statement: when a parse finds no alternative, its error says this about the
failures of the derivation of the start rule.
-/
namespace GrammarKit

/-- The names of what failed at a cursor, each of them once and in the order of first failures. -/
def namesAt (failures : List (Nat × Text)) (cursor : Nat) : List Text :=
  ((failures.filter fun failure => failure.1 = cursor).map Prod.snd).eraseDups

theorem mem_namesAt {failures : List (Nat × Text)} {cursor : Nat} {name : Text} :
    name ∈ namesAt failures cursor ↔ (cursor, name) ∈ failures := by
  rw [namesAt, List.mem_eraseDups, List.mem_map]
  constructor
  · intro hnamed
    obtain ⟨⟨c, n⟩, hfailure, rfl⟩ := hnamed
    obtain ⟨hmem, hcursor⟩ := List.mem_filter.mp hfailure
    obtain rfl : c = cursor := of_decide_eq_true hcursor
    exact hmem
  · intro hmem
    exact ⟨(cursor, name), List.mem_filter.mpr ⟨hmem, decide_eq_true rfl⟩, rfl⟩

theorem eraseDups_concat (names : List Text) (name : Text) :
    (names ++ [name]).eraseDups =
      if name ∈ names then names.eraseDups else names.eraseDups ++ [name] := by
  rw [List.eraseDups_append]
  by_cases hname : name ∈ names
  · simp [List.removeAll, hname]
  · simp [List.removeAll, hname, List.eraseDups_cons]

/-- One more failure adds its name at its cursor, unless the name is there. -/
theorem namesAt_concat (failures : List (Nat × Text)) (cursor : Nat) (name : Text) :
    namesAt (failures ++ [(cursor, name)]) cursor =
      if name ∈ namesAt failures cursor then namesAt failures cursor
      else namesAt failures cursor ++ [name] := by
  have hfilter : ((failures ++ [(cursor, name)]).filter fun failure => failure.1 = cursor) =
      (failures.filter fun failure => failure.1 = cursor) ++ [(cursor, name)] := by
    simp [List.filter_append]
  simp only [namesAt, hfilter, List.map_append, List.map_singleton, eraseDups_concat,
    List.mem_eraseDups]

theorem namesAt_concat_of_ne (failures : List (Nat × Text)) {cursor other : Nat}
    (h : other ≠ cursor) (name : Text) :
    namesAt (failures ++ [(other, name)]) cursor = namesAt failures cursor := by
  simp [namesAt, List.filter_append, h]

namespace Progress

variable {progress : Progress}

structure Named (progress : Progress) : Prop extends progress.Marked where
  names_eq : ∀ f, progress.farthest = some f →
    f.names = namesAt progress.trace.failures f.cursor

theorem initial_named : Progress.initial.Named := ⟨initial_marked, nofun⟩

/-- Where no failure is on record yet, there is no name. -/
theorem Named.namesAt_eq_nil (h : progress.Named) {cursor : Nat}
    (hbefore : ∀ f, progress.farthest = some f → f.cursor < cursor) :
    namesAt progress.trace.failures cursor = [] := by
  rw [List.eq_nil_iff_forall_not_mem]
  intro name hname
  obtain ⟨f, hf, hle⟩ := h.bound _ (mem_namesAt.mp hname)
  have hlt := hbefore f hf
  simp only at hle
  omega

/-- One more failure brings the names up to date. -/
theorem Named.note (h : progress.Named) {cursor : Nat} {name : Text} {f : Farthest}
    (hf : Farthest.note progress.farthest cursor name = some f) :
    f.names = namesAt (progress.trace.failures ++ [(cursor, name)]) f.cursor := by
  have hfirst : (∀ f, progress.farthest = some f → f.cursor < cursor) →
      [name] = namesAt (progress.trace.failures ++ [(cursor, name)]) cursor := by
    intro hbefore
    rw [namesAt_concat, h.namesAt_eq_nil hbefore]
    rfl
  unfold Farthest.note at hf
  cases hfarthest : progress.farthest with
  | none =>
    rw [hfarthest] at hf
    cases hf
    exact hfirst (by rw [hfarthest]; nofun)
  | some g =>
    have hnames := h.names_eq g hfarthest
    rw [hfarthest] at hf
    simp only at hf
    split at hf
    · next hlt =>
      cases hf
      refine hfirst fun g' hg' => ?_
      rw [hfarthest] at hg'
      cases hg'
      exact hlt
    · next hle =>
      split at hf
      · next hnew =>
        cases hf
        obtain ⟨rfl, hnew⟩ := hnew
        simp only
        rw [namesAt_concat, if_neg (hnames ▸ hnew), hnames]
      · next hold =>
        cases hf
        by_cases hcursor : f.cursor = cursor
        · subst hcursor
          have hmem : name ∈ f.names := by
            by_contra hnew
            exact hold ⟨rfl, hnew⟩
          rw [namesAt_concat, if_pos (hnames ▸ hmem), hnames]
        · rw [namesAt_concat_of_ne _ (Ne.symm hcursor), hnames]

theorem Named.record (h : progress.Named) (e : Event) : (progress.record e).Named := by
  refine ⟨h.toMarked.record e, fun f hf => ?_⟩
  rw [failures_record]
  cases hfailure : e.failure? with
  | none =>
    simp only [Progress.record, hfailure] at hf
    simpa using h.names_eq f hf
  | some failure =>
    simp only [Progress.record, hfailure] at hf
    exact h.note hf

end Progress

/-- What a report says of failures: it points at the greatest cursor among them and names what
failed there. -/
def Reports (input : Input) (failures : List (Nat × Text)) (position : Int) (names : List Text) :
    Prop :=
  failures ≠ [] ∧ ∃ cursor, IsGreatest {c | ∃ name, (c, name) ∈ failures} cursor ∧
    position = input.position cursor ∧ names = namesAt failures cursor

namespace Progress

variable {progress : Progress}

theorem Named.reports (h : progress.Named) {f : Farthest} (hf : progress.farthest = some f)
    (input : Input) :
    Reports input progress.trace.failures (input.position f.cursor) f.names := by
  obtain ⟨name, hname⟩ := h.attained f hf
  exact ⟨List.ne_nil_of_mem hname, f.cursor, h.isGreatest hf, rfl, h.names_eq f hf⟩

/-- The farthest failure tells whether any failure is that far. -/
theorem Marked.failedPast_iff (h : progress.Marked) {cursor : Nat} :
    progress.FailedPast cursor ↔ ∃ failure ∈ progress.trace.failures, cursor ≤ failure.1 := by
  constructor
  · intro hfailed
    obtain ⟨f, hf, hle⟩ := hfailed
    obtain ⟨name, hname⟩ := h.attained f hf
    exact ⟨(f.cursor, name), hname, hle⟩
  · intro hexists
    obtain ⟨failure, hfailure, hle⟩ := hexists
    exact (h.bound failure hfailure).mono hle

end Progress

namespace Parser

variable {p : Parser} {limit : Nat} {start : Text} {input : Input} {allowTrailing : Bool}

/-- A run of the start rule leaves the failures of its derivation on record, and their names are up
to date. -/
theorem named_of_run (hp : p.rules.Tagged p.variants) (hstart : p.rules.isProduction start = true)
    {cursor : Nat} {o : Outcome} {progress : Progress}
    (hrun : ((p.session input).rule limit [] start cursor).run.run Progress.initial =
      (.ok o, progress)) :
    progress.Named ∧
      ∃ d : (p.session input).Derivation (.rule start) cursor o,
        progress.trace.failures = d.failures := by
  have hminds : (p.session input).Minds (fun _ => True) Progress.Named :=
    { token := fun _ _ _ => trivial
      skip := fun _ _ => trivial
      sound := hp.toSound
      record := fun _ hnamed => hnamed.record _ }
  have hkeeps := Session.rule_keeps hminds limit (Session.Stack.nil _ _) start hstart cursor trivial
  have haccounts := Session.rule_accounts (s := p.session input) hp limit [] start hstart cursor []
  exact ⟨(hkeeps.answer Progress.initial_named hrun).1, haccounts.answer rfl hrun⟩

/-- A report that no alternative matched is one of the failures of the start rule. -/
theorem reports_of_noAlternativeMatched (hp : p.rules.Tagged p.variants) {position : Int}
    {names : List Text} (h : (p.parse limit start input allowTrailing).1 =
      .error (.parse (.noAlternativeMatched position names))) :
    ∃ cursor o, (p.session input).Skips 0 cursor ∧
      ∃ d : (p.session input).Derivation (.rule start) cursor o,
        (p.parse limit start input allowTrailing).2.failures = d.failures ∧
        Reports input d.failures position names := by
  rcases parse_eq_error hp.toSound h with he | ⟨halt, he⟩ |
    ⟨cursor, o, progress, hstart, hskips, hrun, htrace, ho⟩
  · cases he
  · cases halt with
    | noProgress frame => cases he
    | tooDeep frame => cases he
    | fault f => cases he
  · obtain ⟨hnamed, d, hd⟩ := named_of_run hp hstart hrun
    refine ⟨cursor, o, hskips, d, by rw [htrace, hd], ?_⟩
    have hfarthest : ∃ f, progress.farthest = some f ∧
        ParseError.noAlternativeMatched position names =
          noAlternativeMatched input progress.farthest := by
      rcases ho with ⟨rfl, he⟩ | ⟨m, rfl, hjudge⟩
      · obtain ⟨f, hf, -⟩ := hnamed.bound _ (hd ▸ d.mem_failures)
        exact ⟨f, hf, he⟩
      · obtain ⟨-, ⟨f, hf, -, he⟩ | ⟨-, he⟩⟩ := judge_eq_error hjudge
        · exact ⟨f, hf, he⟩
        · cases he
    obtain ⟨f, hf, he⟩ := hfarthest
    rw [hf] at he
    cases he
    rw [← hd]
    exact hnamed.reports hf input

/-- What is left behind a match is reported as a failure if there is one that far. -/
theorem judge_of_lt (start : Text) {progress : Progress} (hmarked : progress.Marked) {m : Match}
    (hlt : m.stop < input.length) :
    ((∃ failure ∈ progress.trace.failures, m.stop ≤ failure.1) →
      judge start input false progress.farthest m =
        .error (.parse (noAlternativeMatched input progress.farthest))) ∧
    ((∀ failure ∈ progress.trace.failures, failure.1 < m.stop) →
      judge start input false progress.farthest m =
        .error (.parse (.trailingInput (input.position m.stop) start))) := by
  unfold judge
  rw [if_pos ⟨hlt, by simp⟩]
  constructor
  · intro hfailure
    obtain ⟨f, hf, hle⟩ := hmarked.failedPast_iff.mpr hfailure
    rw [hf, if_pos (by simpa using hle)]
  · intro hbefore
    rw [if_neg]
    intro hany
    obtain ⟨f, hf, hle⟩ := Option.any_eq_true _ _ |>.mp hany
    obtain ⟨failure, hfailure, hpast⟩ :=
      hmarked.failedPast_iff.mp ⟨f, hf, of_decide_eq_true hle⟩
    have hlt := hbefore failure hfailure
    omega

/-- What a parse comes to when its start rule has a derivation and the input is not used up. -/
theorem parse_of_derivation (hp : p.rules.Tagged p.variants)
    (hstart : p.rules.isProduction start = true) {cursor : Nat}
    (hskips : (p.session input).Skips 0 cursor) {o : Outcome}
    (d : (p.session input).Derivation (.rule start) cursor o) (limit : Nat) (allowTrailing : Bool) :
    (∃ position rule, (p.parse limit start input allowTrailing).1 =
        .error (.parse (.tooDeep position rule))) ∨
      (p.parse limit start input allowTrailing).2.failures = d.failures ∧
      (o = none → ∃ position names, (p.parse limit start input allowTrailing).1 =
        .error (.parse (.noAlternativeMatched position names))) ∧
      ∀ m, o = some m → m.stop < input.length → allowTrailing = false →
        ((∃ failure ∈ d.failures, m.stop ≤ failure.1) →
          ∃ position names, (p.parse limit start input allowTrailing).1 =
            .error (.parse (.noAlternativeMatched position names))) ∧
        ((∀ failure ∈ d.failures, failure.1 < m.stop) →
          (p.parse limit start input allowTrailing).1 =
            .error (.parse (.trailingInput (input.position m.stop) start))) := by
  obtain ⟨cursor', hskip, hskips'⟩ := (p.session input).skip_cases hp.toSound 0
  obtain rfl := hskips.unique hskips'
  have hfinds := Session.rule_finds hp limit [] d hstart (by simp)
  unfold parse
  rw [if_pos hstart, run_attempt hskip]
  generalize hrun : ((p.session input).rule limit [] start cursor).run.run Progress.initial = run
  obtain ⟨halt | o', progress⟩ := run
  · obtain ⟨frame, rfl⟩ := hfinds.failure hrun
    exact Or.inl ⟨_, _, rfl⟩
  · obtain rfl := hfinds.answer hrun
    obtain ⟨hnamed, d', hd'⟩ := named_of_run hp hstart hrun
    have hd : progress.trace.failures = d.failures := hd'.trans (d'.failures_unique d)
    refine Or.inr ⟨hd, ?_, ?_⟩
    · rintro rfl
      exact ⟨_, _, rfl⟩
    · rintro m rfl hlt rfl
      obtain ⟨hmissed, hleft⟩ := judge_of_lt start hnamed.toMarked hlt
      rw [← hd]
      exact ⟨fun hfailure => ⟨_, _, hmissed hfailure⟩, hleft⟩

end Parser

namespace Grammar

/-- Reports of failed attempts are exact. Where the start rule has a derivation, the failures of the
derivation are those on record, unless the parse gets too deep; when the start rule fails, or input
is left behind it and a failure is that far, the parse finds no alternative, and else it reports the
input that is left. Whenever it finds no alternative, it reports the failures of the derivation: the
place of the farthest of them, and the names of those, each once and in their order. -/
theorem failures_reported_exactly {source whitespaceName : Text} {g : Grammar}
    (hg : compile source whitespaceName = .ok g) (limit : Nat) (start : Text) (input : Input)
    (allowTrailing : Bool) :
    (g.rules.isProduction start = true →
      ∀ cursor o, (g.parser.session input).Skips 0 cursor →
      ∀ d : (g.parser.session input).Derivation (.rule start) cursor o,
      (∃ position rule, (g.parser.parse limit start input allowTrailing).1 =
          .error (.parse (.tooDeep position rule))) ∨
        (g.parser.parse limit start input allowTrailing).2.failures = d.failures ∧
        (o = none → ∃ position names, (g.parser.parse limit start input allowTrailing).1 =
          .error (.parse (.noAlternativeMatched position names))) ∧
        ∀ m, o = some m → m.stop < input.length → allowTrailing = false →
          ((∃ failure ∈ d.failures, m.stop ≤ failure.1) →
            ∃ position names, (g.parser.parse limit start input allowTrailing).1 =
              .error (.parse (.noAlternativeMatched position names))) ∧
          ((∀ failure ∈ d.failures, failure.1 < m.stop) →
            (g.parser.parse limit start input allowTrailing).1 =
              .error (.parse (.trailingInput (input.position m.stop) start)))) ∧
    ∀ position names, (g.parser.parse limit start input allowTrailing).1 =
        .error (.parse (.noAlternativeMatched position names)) →
      ∃ cursor o, (g.parser.session input).Skips 0 cursor ∧
        ∃ d : (g.parser.session input).Derivation (.rule start) cursor o,
          (g.parser.parse limit start input allowTrailing).2.failures = d.failures ∧
          Reports input d.failures position names := by
  have hcompiled := compiled_of_compile hg
  have htagged := hcompiled.tagged
  constructor
  · intro hstart cursor o hskips d
    have hproduction : g.parser.rules.isProduction start = true := hcompiled.parserRules ▸ hstart
    exact Parser.parse_of_derivation htagged hproduction hskips d limit allowTrailing
  · intro position names h
    exact Parser.reports_of_noAlternativeMatched htagged h

def retriedWords : Text := Text.ofString "a ::= b? 'y' | b 'z'; b ::= 'x' 'w' | 'x' 'v';"

/-- On `xu` the word is tried twice, and what is missed behind the `x` is named once. -/
theorem failures_reported_exactly_retriedWords :
    ∃ g, compile retriedWords (Text.ofString "_") = .ok g ∧
      (g.parser.parse 9 (Text.ofString "a") (.text (Text.ofString "xu")) false).1 =
        .error (.parse (.noAlternativeMatched 1 [Text.ofString "'w'", Text.ofString "'v'"])) ∧
      ∃ cursor o, (g.parser.session (.text (Text.ofString "xu"))).Skips 0 cursor ∧
        ∃ d : (g.parser.session (.text (Text.ofString "xu"))).Derivation
            (.rule (Text.ofString "a")) cursor o,
          d.failures = [(1, Text.ofString "'w'"), (1, Text.ofString "'v'"), (0, Text.ofString "b"),
            (0, Text.ofString "'y'"), (1, Text.ofString "'w'"), (1, Text.ofString "'v'"),
            (0, Text.ofString "b"), (0, Text.ofString "a")] ∧
          Reports (.text (Text.ofString "xu")) d.failures 1
            [Text.ofString "'w'", Text.ofString "'v'"] := by
  have htest : (compile retriedWords (Text.ofString "_")).toOption.any (fun g =>
      (match (g.parser.parse 9 (Text.ofString "a") (.text (Text.ofString "xu")) false).1 with
      | .error (.parse e) =>
        decide (e = .noAlternativeMatched 1 [Text.ofString "'w'", Text.ofString "'v'"])
      | _ => false) &&
      decide ((g.parser.parse 9 (Text.ofString "a") (.text (Text.ofString "xu")) false).2.failures =
        [(1, Text.ofString "'w'"), (1, Text.ofString "'v'"), (0, Text.ofString "b"),
          (0, Text.ofString "'y'"), (1, Text.ofString "'w'"), (1, Text.ofString "'v'"),
          (0, Text.ofString "b"), (0, Text.ofString "a")])) = true := by
    decide +kernel
  obtain ⟨g, hg, htest⟩ := exists_compile htest
  obtain ⟨herror, hfailures⟩ := Bool.and_eq_true_iff.mp htest
  have hmissed : (g.parser.parse 9 (Text.ofString "a") (.text (Text.ofString "xu")) false).1 =
      .error (.parse (.noAlternativeMatched 1 [Text.ofString "'w'", Text.ofString "'v'"])) := by
    split at herror
    · next e he => rw [he, of_decide_eq_true herror]
    · cases herror
  obtain ⟨cursor, o, hskips, d, hd, hreports⟩ :=
    (failures_reported_exactly hg 9 (Text.ofString "a") (.text (Text.ofString "xu")) false).2 _ _
      hmissed
  exact ⟨g, hg, hmissed, cursor, o, hskips, d, by rw [← hd, of_decide_eq_true hfailures], hreports⟩

end Grammar

end GrammarKit
