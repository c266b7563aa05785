import Lox.Diagnostic.Basic

/-!
# Diagnostic logs

A log keeps diagnostics in the order in which they were reported, and remembers whether one
about the program text and whether one about a running program was among them. Handing the
diagnostics out does not clear this memory; only a reset does.
-/

namespace Lox

/-- Diagnostics in the order reported, and what kinds there have been since the last reset. -/
structure Log where
  diagnostics : List Diagnostic := []
  hadError : Bool := false
  hadRuntimeError : Bool := false
  deriving DecidableEq, Repr, Inhabited

namespace Log

/-- Add a diagnostic and remember its kind. -/
def report (log : Log) (d : Diagnostic) : Log where
  diagnostics := log.diagnostics ++ [d]
  hadError := log.hadError || d.isStatic
  hadRuntimeError := log.hadRuntimeError || !d.isStatic

/-- Add several diagnostics, the first one first. -/
def reportAll (log : Log) (ds : List Diagnostic) : Log where
  diagnostics := log.diagnostics ++ ds
  hadError := log.hadError || ds.any Diagnostic.isStatic
  hadRuntimeError := log.hadRuntimeError || ds.any fun d => !d.isStatic

/-- Add the diagnostic that stopped a running program. -/
def stop (log : Log) (d : Diagnostic) : Log :=
  { log with diagnostics := log.diagnostics ++ [d], hadRuntimeError := true }

/-- Hand out the diagnostics. What kinds there have been is still remembered. -/
def take (log : Log) : List Diagnostic × Log :=
  (log.diagnostics, { log with diagnostics := [] })

def reset (_ : Log) : Log := {}

@[simp] theorem diagnostics_report (log : Log) (d : Diagnostic) :
    (log.report d).diagnostics = log.diagnostics ++ [d] := rfl

@[simp] theorem hadError_report (log : Log) (d : Diagnostic) :
    (log.report d).hadError = (log.hadError || d.isStatic) := rfl

@[simp] theorem diagnostics_stop (log : Log) (d : Diagnostic) :
    (log.stop d).diagnostics = log.diagnostics ++ [d] := rfl

@[simp] theorem hadError_stop (log : Log) (d : Diagnostic) :
    (log.stop d).hadError = log.hadError := rfl

@[simp] theorem reportAll_nil (log : Log) : log.reportAll [] = log := by simp [reportAll]

theorem reportAll_cons (log : Log) (d : Diagnostic) (ds : List Diagnostic) :
    log.reportAll (d :: ds) = (log.report d).reportAll ds := by
  simp [reportAll, report, Bool.or_assoc]

@[simp] theorem diagnostics_reportAll (log : Log) (ds : List Diagnostic) :
    (log.reportAll ds).diagnostics = log.diagnostics ++ ds := rfl

@[simp] theorem hadError_reportAll (log : Log) (ds : List Diagnostic) :
    (log.reportAll ds).hadError = (log.hadError || ds.any Diagnostic.isStatic) := rfl

end Log
end Lox
