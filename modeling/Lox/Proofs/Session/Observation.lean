import Lox.Proofs.Session.History

/-!
# What can be seen of a session

Of a session can be seen what its steps answer, what it prints, and its log. Two sessions in which
all this is the same, now and whatever is done with them later, cannot be told apart. Where the
lines of the faults of running programs differ, they are left out of the comparison.
-/

namespace Lox

/-- A diagnostic without its line, if it is about a running program. -/
def Diagnostic.erase : Diagnostic → Diagnostic
  | runtime _ fault => runtime 0 fault
  | d => d

namespace Log

variable {f : Diagnostic → Diagnostic} {log log' : Log}

def map (f : Diagnostic → Diagnostic) (log : Log) : Log :=
  { log with diagnostics := log.diagnostics.map f }

/-- A log without the lines of the faults of running programs. -/
def erase : Log → Log := map Diagnostic.erase

@[simp] theorem map_id (log : Log) : log.map id = log := by
  simp [map]

theorem map_reportAll_congr (h : log'.map f = log.map f) (ds : List Diagnostic) :
    (log'.reportAll ds).map f = (log.reportAll ds).map f := by
  obtain ⟨hds, herror, hruntime⟩ := Log.mk.inj h
  simp only [map, reportAll, List.map_append, hds, herror, hruntime]

theorem map_stop_congr (h : log'.map f = log.map f) {d d' : Diagnostic} (hd : f d' = f d) :
    (log'.stop d').map f = (log.stop d).map f := by
  obtain ⟨hds, herror, hruntime⟩ := Log.mk.inj h
  simp only [map, stop, List.map_append, List.map_cons, hds, herror, hd]

end Log

namespace Session

/-- The answers that steps give. -/
inductive Reply where
  | ran (outcome : Outcome)
  | read (program : List Stmt)
  | forgot
  | took (diagnostics : List Diagnostic)

instance (reply : Reply) (outcome : Outcome) : Decidable (reply = .ran outcome) :=
  match reply with
  | .ran outcome' => decidable_of_iff (outcome' = outcome) ⟨congrArg _, Reply.ran.inj⟩
  | .read _ | .forgot | .took _ => isFalse nofun

/-- What a step answers. -/
def Step.reply (s : Session) : Step → Reply
  | run fuel source => .ran (s.run fuel source).1
  | parse source => .read (s.parse source).1
  | reset => .forgot
  | takeDiagnostics => .took s.takeDiagnostics.1

/-- What can be seen after a step: its answer, the lines that are printed so far, and the log. -/
structure Observation where
  reply : Reply
  printed : Array String
  log : Log

/-- What can be seen after each of several steps. -/
def observations (s : Session) : List Step → List Observation
  | [] => []
  | step :: steps =>
    ⟨step.reply s, (step.apply s).machine.sink.lines, (step.apply s).log⟩ ::
      observations (step.apply s) steps

/-- An answer with other diagnostics. -/
def Reply.map (f : Diagnostic → Diagnostic) : Reply → Reply
  | took ds => took (ds.map f)
  | reply => reply

def Observation.map (f : Diagnostic → Diagnostic) (o : Observation) : Observation :=
  { o with reply := o.reply.map f, log := o.log.map f }

/-- What can be seen, without the lines of the faults of running programs. -/
def Observation.erase : Observation → Observation := Observation.map Diagnostic.erase

/-- The sessions cannot be told apart, but for the lines of the faults of running programs. -/
structure Resembles (s s' : Session) : Prop where
  printed : s.machine.sink.lines = s'.machine.sink.lines
  log : s.log.erase = s'.log.erase
  later : ∀ steps, (s.observations steps).map Observation.erase =
    (s'.observations steps).map Observation.erase

namespace Resembles

variable {s s' s'' : Session}

theorem refl (s : Session) : s.Resembles s := ⟨rfl, rfl, fun _ => rfl⟩

theorem symm (h : s.Resembles s') : s'.Resembles s :=
  ⟨h.printed.symm, h.log.symm, fun steps => (h.later steps).symm⟩

theorem trans (h : s.Resembles s') (h' : s'.Resembles s'') : s.Resembles s'' :=
  ⟨h.printed.trans h'.printed, h.log.trans h'.log,
    fun steps => (h.later steps).trans (h'.later steps)⟩

/-- Nor can they be told apart after a step. -/
theorem step (h : s.Resembles s') (step : Step) :
    (step.reply s).map Diagnostic.erase = (step.reply s').map Diagnostic.erase ∧
      (step.apply s).Resembles (step.apply s') := by
  have hnow := h.later [step]
  simp only [observations, List.map_cons, List.map_nil, List.cons.injEq, Observation.erase,
    Observation.map, Observation.mk.injEq, and_true] at hnow
  refine ⟨hnow.1, hnow.2.1, hnow.2.2, fun steps => ?_⟩
  have hlater := h.later (step :: steps)
  simp only [observations, List.map_cons, List.cons.injEq] at hlater
  exact hlater.2

theorem run (h : s.Resembles s') (fuel : Nat) (source : String) :
    (s.run fuel source).1 = (s'.run fuel source).1 ∧
      (s.run fuel source).2.Resembles (s'.run fuel source).2 := by
  obtain ⟨hreply, hsession⟩ := h.step (.run fuel source)
  exact ⟨Reply.ran.inj hreply, hsession⟩

end Resembles

end Session

end Lox
