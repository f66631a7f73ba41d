import GrammarKit.Proofs.Rule.Outcome

/-!
Rows of calls to a registry. Main statement: what is handed out in the end is the first failure of a
definition, and where no definition failed it depends only on the definitions of the texts that can
be read, in the order of the calls. A call is as good as a loop over the definitions it brings, and
once a failure is remembered no call changes that.
-/
namespace GrammarKit.Registry

inductive Call where
  | text (text : Text)
  | definition (d : Source.Definition)

namespace Call

def action : Call → Action Unit
  | text t => addText t
  | definition d => add d

def definitions : Call → List Source.Definition
  | text t => (Source.read t).toOption.getD []
  | definition d => [d]

/-- The failure of a definition that a call was answered with. A text that cannot be read is also
answered with an error, but none of its definitions failed. -/
def failed? (c : Call) (answer : Except Failure Unit) : Option Failure :=
  match c, answer with
  | _, .ok _ => none
  | text t, .error failure => if (Source.read t).isOk then some failure else none
  | definition _, .error failure => some failure

end Call

/-- Makes calls one after the other, whatever the answers are, and collects the answers. -/
def perform : List Call → Registry → List (Except Failure Unit) × Registry
  | [], reg => ([], reg)
  | c :: rest, reg =>
    let (answer, reg) := c.action.run.run reg
    let (answers, reg) := perform rest reg
    (answer :: answers, reg)

def firstFailure : List Call → List (Except Failure Unit) → Option Failure
  | c :: calls, answer :: answers => (c.failed? answer).or (firstFailure calls answers)
  | _, _ => none

def after (calls : List Call) (reg : Registry) : Registry := (perform calls reg).2

theorem after_cons (c : Call) (rest : List Call) (reg : Registry) :
    after (c :: rest) reg = after rest (c.action.run.run reg).2 := rfl

theorem firstFailure_cons (c : Call) (rest : List Call) (reg : Registry) :
    firstFailure (c :: rest) (perform (c :: rest) reg).1 =
      (c.failed? (c.action.run.run reg).1).or
        (firstFailure rest (perform rest (c.action.run.run reg).2).1) := rfl

def error? {α : Type} : Except Failure α → Option Failure
  | .ok _ => none
  | .error failure => some failure

def Clean (reg : Registry) : Prop := reg.Ready ∧ reg.failure = none

/-- A registry in which a definition has failed, and this was the first. -/
def Latched (failure : Failure) (reg : Registry) : Prop :=
  reg.closed = false ∧ ∃ e, failure = .grammar e ∧ reg.failure = some e

/-- A definition that fails in a clean registry is remembered. -/
theorem add_clean (d : Source.Definition) :
    Ensures Clean (add d) (fun _ reg => Clean reg) Latched := by
  intro reg hreg
  have hmerge := Workbench.merge_ensures reg.whitespaceName d
  rw [add_run d hreg.1.1]
  generalize hrun : (Workbench.merge reg.whitespaceName d).run.run reg.workbench = result
  obtain ⟨failure | answer, w⟩ := result
  · obtain ⟨e, rfl⟩ := hmerge.failure hreg.1.2 hrun
    refine ⟨hreg.1.1, e, rfl, ?_⟩
    show reg.failure.or (some e) = some e
    rw [hreg.2]
    rfl
  · exact ⟨⟨hreg.1.1, hmerge.answer hreg.1.2 hrun⟩, hreg.2⟩

/-- The failure that is remembered stays, whether a definition fails or not. -/
theorem add_latched (failure : Failure) (d : Source.Definition) :
    Ensures (Latched failure) (add d) (fun _ => Latched failure) fun _ => Latched failure := by
  intro reg hreg
  obtain ⟨hopen, e, he, hfailure⟩ := hreg
  rw [add_run d hopen]
  generalize (Workbench.merge reg.whitespaceName d).run.run reg.workbench = result
  obtain ⟨other | answer, w⟩ := result
  · refine ⟨hopen, e, he, ?_⟩
    show reg.failure.or other.grammar? = some e
    rw [hfailure]
    rfl
  · exact ⟨hopen, e, he, hfailure⟩

theorem requireOpen_bind_run {α : Type} (x : Unit → Action α) {reg : Registry}
    (hopen : reg.closed = false) : (requireOpen >>= x).run.run reg = (x ()).run.run reg := by
  rw [Ensures.run_bind, requireOpen_run, hopen]
  rfl

theorem addText_run (t : Text) {reg : Registry} (hopen : reg.closed = false) :
    (addText t).run.run reg =
      match Source.read t with
      | .error e => (.error (.grammar e), reg)
      | .ok ds => (ds.forM add).run.run reg := by
  rw [addText, requireOpen_bind_run _ hopen]
  cases Source.read t with
  | error e => rfl
  | ok ds => rfl

/-- A call does to a registry what adding its definitions does, and it is answered with the failure
of a definition if one of them fails. -/
theorem call_run (c : Call) {reg : Registry} (hopen : reg.closed = false) :
    (c.action.run.run reg).2 = ((c.definitions.forM add).run.run reg).2 ∧
      c.failed? (c.action.run.run reg).1 = error? ((c.definitions.forM add).run.run reg).1 := by
  cases c with
  | definition d =>
    have hloop : ([d].forM add).run.run reg = (add d).run.run reg := by
      show (add d >>= fun _ => pure ()).run.run reg = _
      rw [Ensures.run_bind]
      obtain ⟨failure | answer, reg'⟩ := (add d).run.run reg <;> rfl
    show ((add d).run.run reg).2 = (([d].forM add).run.run reg).2 ∧
      Call.failed? (.definition d) ((add d).run.run reg).1 = error? (([d].forM add).run.run reg).1
    rw [hloop]
    obtain ⟨failure | answer, reg'⟩ := (add d).run.run reg <;> exact ⟨rfl, rfl⟩
  | text t =>
    show ((addText t).run.run reg).2 = _ ∧ Call.failed? (.text t) ((addText t).run.run reg).1 = _
    rw [addText_run t hopen]
    cases hread : Source.read t with
    | error e =>
      simp only [Call.failed?, Call.definitions, hread]
      exact ⟨rfl, rfl⟩
    | ok ds =>
      simp only [Call.definitions, hread]
      show _ ∧ _ = error? ((ds.forM add).run.run reg).1
      refine ⟨rfl, ?_⟩
      obtain ⟨failure | answer, reg'⟩ := (ds.forM add).run.run reg
      · simp only [Call.failed?, hread]
        rfl
      · rfl

/-- No call makes a registry forget the first failure. -/
theorem after_latched {failure : Failure} (calls : List Call) {reg : Registry}
    (hreg : Latched failure reg) : Latched failure (after calls reg) := by
  induction calls generalizing reg with
  | nil => exact hreg
  | cons c rest ih =>
    rw [after_cons]
    refine ih ?_
    cases c with
    | definition d => exact (add_latched failure d).state hreg
    | text t =>
      show Latched failure ((addText t).run.run reg).2
      rw [addText_run t hreg.1]
      split
      · exact hreg
      · next ds _ =>
        have hloop : Ensures (Latched failure) (ds.forM add) (fun _ => Latched failure)
            fun _ => Latched failure := Ensures.forM (add_latched failure) ds
        exact hloop.state hreg

/-- What a row of calls does to a clean registry, in terms of all definitions that they bring: if
these can be added, no failure is answered and the registry is the one they lead to; if one of them
fails, this failure is answered first and remembered. -/
theorem perform_clean (calls : List Call) {reg : Registry} (hreg : reg.Clean) :
    match ((calls.flatMap Call.definitions).forM add).run.run reg with
    | (.ok _, reg') => firstFailure calls (perform calls reg).1 = none ∧ after calls reg = reg'
    | (.error failure, _) => firstFailure calls (perform calls reg).1 = some failure ∧
      Latched failure (after calls reg) := by
  induction calls generalizing reg with
  | nil => exact ⟨rfl, rfl⟩
  | cons c rest ih =>
    obtain ⟨hstate, hfailed⟩ := call_run c hreg.1.1
    have hadd := Ensures.forM add_clean c.definitions
    have hsplit : ((c :: rest).flatMap Call.definitions).forM add =
        (do c.definitions.forM add; (rest.flatMap Call.definitions).forM add) := by
      rw [List.flatMap_cons]
      exact List.forM_append
    rw [hsplit, Ensures.run_bind, after_cons, firstFailure_cons, hstate, hfailed]
    generalize hrun : (c.definitions.forM add).run.run reg = result
    obtain ⟨failure | answer, reg'⟩ := result
    · exact ⟨rfl, after_latched rest (hadd.failure hreg hrun)⟩
    · exact ih (hadd.answer hreg hrun)

theorem empty_clean (whitespaceName : Text) : Clean (empty whitespaceName) :=
  ⟨empty_ready whitespaceName, rfl⟩

theorem close_latched {failure : Failure} {reg : Registry} (h : Latched failure reg) :
    (close.run.run reg).1 = .error failure := by
  obtain ⟨hopen, e, rfl, hfailure⟩ := h
  rw [close, requireOpen_bind_run _ hopen, Ensures.run_get_bind, hfailure]
  rfl

/-- What is handed out after a row of calls. -/
theorem close_after (calls : List Call) {reg : Registry} (hreg : reg.Clean) :
    (close.run.run (after calls reg)).1 =
      ((do (calls.flatMap Call.definitions).forM add; close : Action RuleSet).run.run reg).1 := by
  have hcalls := perform_clean calls hreg
  rw [Ensures.run_bind]
  generalize ((calls.flatMap Call.definitions).forM add).run.run reg = result at hcalls
  obtain ⟨failure | answer, reg'⟩ := result
  · exact close_latched hcalls.2
  · show (close.run.run (after calls reg)).1 = (close.run.run reg').1
    rw [hcalls.2]

/-- No registry hands out a rule set in which a definition was merged in part: after any row of
calls it hands out the first failure of a definition. Where there is none it hands out what it would
if it had been given the definitions of the readable texts one by one. -/
theorem close_after_calls (whitespaceName : Text) (calls : List Call) :
    (close.run.run (after calls (empty whitespaceName))).1 =
      match firstFailure calls (perform calls (empty whitespaceName)).1 with
      | some failure => .error failure
      | none => (close.run.run (after ((calls.flatMap Call.definitions).map .definition)
          (empty whitespaceName))).1 := by
  have hcalls := perform_clean calls (empty_clean whitespaceName)
  have honebyone : ((calls.flatMap Call.definitions).map Call.definition).flatMap Call.definitions =
      calls.flatMap Call.definitions := by
    rw [List.flatMap_map]
    exact List.flatMap_singleton' _
  rw [close_after _ (empty_clean whitespaceName), close_after _ (empty_clean whitespaceName),
    honebyone, Ensures.run_bind]
  generalize ((calls.flatMap Call.definitions).forM add).run.run (empty whitespaceName) = result
    at hcalls
  obtain ⟨failure | answer, reg'⟩ := result
  · rw [hcalls.1]
  · rw [hcalls.1]

end GrammarKit.Registry
