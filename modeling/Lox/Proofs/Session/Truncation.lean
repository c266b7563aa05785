import Lox.Proofs.Machine.Truncation
import Lox.Proofs.Session.Returns

/-!
# Sessions whose sink fails

A source that prints no more lines than the sink takes runs as with a sink that takes all lines. A
source that prints more is stopped at the first line that the sink refuses, or does not flush. This
is then the only fault of the run, and the session is left as it was at that moment.
-/

namespace Lox

open Exec

namespace Session

def withSink (s : Session) (sink : Sink) : Session :=
  { s with machine := { s.machine with sink := sink } }

variable {fuel : Nat} {program : List Stmt} {m m' : Machine} {log : Log} {fresh : NodeId}

/-- An execution that does the same on another machine has the same outcome and the same log. -/
theorem execute_of_onMachine {g : Machine → Machine}
    (h : interpret fuel program m' = onMachine g (interpret fuel program m)) :
    execute fuel ⟨m', log, fresh⟩ program =
      ((execute fuel ⟨m, log, fresh⟩ program).1,
        { (execute fuel ⟨m, log, fresh⟩ program).2 with
          machine := g (execute fuel ⟨m, log, fresh⟩ program).2.machine }) := by
  unfold execute
  rw [h]
  cases interpret fuel program m with
  | ok a m => rfl
  | error halt m =>
    simp only [onMachine]
    cases halt.diagnostic? <;> rfl

theorem execute_of_output {fault : OutputFault}
    (h : interpret fuel program m = .error (.output fault) m') :
    execute fuel ⟨m, log, fresh⟩ program =
      (.runtimeError, ⟨m', log.stop (.output fault), fresh⟩) := by
  simp only [execute, h, Halt.diagnostic?]

theorem run_withSink {s : Session} {source : String} (hlog : s.log.hadError = false)
    (h : Clean s.fresh source) (sink : Sink) :
    (s.withSink sink).run fuel source =
      execute fuel ⟨(s.withSink sink).prepared source, s.log, (read s.fresh source).fresh⟩
        (read s.fresh source).statements :=
  run_of_clean (s := s.withSink sink) hlog h

theorem prepared_withSink (s : Session) (sink : Sink) (source : String) :
    (s.withSink sink).prepared source = { s.prepared source with sink := sink } := by
  simp only [prepared, withSink, Machine.noteAll]

theorem context_prepared (s : Session) (source : String) :
    (s.prepared source).chain = s.machine.chain ∧ (s.prepared source).depth = s.machine.depth := by
  simp [prepared, Machine.noteAll]

/-- Nothing but an execution uses the sink. -/
theorem rejected_withSink (s : Session) (sink : Sink) (source : String) :
    (s.withSink sink).rejected source = (s.rejected source).withSink sink := by
  have hlooked : (s.withSink sink).Looked source ↔ s.Looked source := Iff.rfl
  have hcomplaints : (s.withSink sink).complaints source = s.complaints source := rfl
  simp only [rejected, hcomplaints, hlooked, prepared_withSink]
  split <;> simp [withSink]

theorem prepared_failing (s : Session) (source : String) (failure : Sink.Failure) (limit : Nat) :
    (s.withSink (s.machine.sink.failing failure limit)).prepared source =
      ((s.withSink s.machine.sink.working).prepared source).failing failure limit := by
  simp [prepared_withSink, Machine.failing]

/-- Take a run with a sink that takes all lines, and the same run with a sink that fails after `k`
more flushes. If the first one prints no more than `k` lines, the second one does the same.
Otherwise it ends with the fault of the sink and reports nothing else. The sink has the first `k`
lines then, and one more if it fails at flushing. All else is left as it was at the moment at which
the line behind the first `k` was printed. -/
theorem run_truncated (fuel : Nat) (s : Session) (source : String) (failure : Sink.Failure)
    (k : Nat) :
    let sink := s.machine.sink
    let limit := sink.flushes + k
    let whole := (s.withSink sink.working).run fuel source
    let cut := (s.withSink (sink.failing failure limit)).run fuel source
    ∃ lines : List String, whole.2.machine.sink = sink.working.taking lines ∧
      (lines.length ≤ k →
        cut = (whole.1, whole.2.withSink (whole.2.machine.sink.failing failure limit))) ∧
      (k < lines.length →
        cut.1 = .runtimeError ∧ cut.2.log = s.log.stop (.output failure.fault) ∧
          cut.2.machine.sink = { sink.failing failure limit with
            lines := sink.lines ++ (lines.take (k + failure.kept)).toArray, flushes := limit } ∧
          ∃ v m, Run.ComesToPrint ⟨fuel, .program (read s.fresh source).statements,
              (s.withSink sink.working).prepared source⟩ v m ∧
            m.sink = sink.working.taking (lines.take k) ∧ lines[k]? = some (m.heap.text v) ∧
            cut.2.machine = { m with
              chain := s.machine.chain
              depth := s.machine.depth
              sink := cut.2.machine.sink }) := by
  intro sink limit whole cut
  by_cases hclean : s.log.hadError = false ∧ Clean s.fresh source
  · have hwhole : whole = _ := run_withSink hclean.1 hclean.2 sink.working
    have hcut : cut = _ := run_withSink hclean.1 hclean.2 (sink.failing failure limit)
    have hsink : ((s.withSink sink.working).prepared source).sink = sink.working := by
      rw [prepared_withSink]
    have hcontext := context_prepared (s.withSink sink.working) source
    rw [prepared_failing] at hcut
    generalize (s.withSink sink.working).prepared source = start at *
    have hlimit : start.sink.flushes + k = limit := by rw [hsink]; rfl
    obtain ⟨lines, hlines, hsame, hhalt⟩ := interpret_failing fuel (read s.fresh source).statements
      (m := start) (by rw [hsink]; rfl) failure k
    rw [hlimit] at hsame hhalt
    refine ⟨lines, ?_, fun hle => ?_, fun hlt => ?_⟩
    · rw [hwhole, machine_execute, ← hsink]
      exact hlines
    · rw [hcut, hwhole, execute_of_onMachine (hsame hle)]
      rfl
    · obtain ⟨v, m, hv, hbefore, hline, hhalt⟩ := hhalt hlt
      rw [hsink] at hbefore
      rw [hsink, Sink.failing_working, hcontext.1, hcontext.2] at hhalt
      rw [hcut.trans (execute_of_output hhalt)]
      exact ⟨rfl, rfl, rfl, v, m, hv, hbefore, hline, rfl⟩
  · have hwhole : whole = (.staticError, (s.withSink sink.working).rejected source) :=
      run_of_not_clean fuel hclean
    have hcut : cut = (.staticError, (s.withSink (sink.failing failure limit)).rejected source) :=
      run_of_not_clean fuel hclean
    refine ⟨[], ?_, fun _ => ?_, fun hlt => absurd hlt (Nat.not_lt_zero k)⟩
    · rw [hwhole, rejected_withSink, Sink.taking_nil]
      rfl
    · rw [hcut, hwhole, rejected_withSink, rejected_withSink]
      simp [withSink]

end Session

end Lox
