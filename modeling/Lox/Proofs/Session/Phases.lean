import Lox.Proofs.Parser.Acceptance
import Lox.Proofs.Session.Joining

/-!
# What one run adds to the log

A run goes from the text to the tokens, the program, the names and the execution, and stops behind
the first of these steps that leaves a fault of the text in the log. So what it reports comes from
one stretch of the way: the faults of the tokens and then those of the grammar, the faults of the
names, or the one fault that stopped the execution.
-/

namespace Lox

/-- The faults of a source that cannot be read: those of its tokens, and then those of its
grammar. -/
def Unreadable (ds : List Diagnostic) : Prop :=
  ds ≠ [] ∧ ∃ lexical syntactic, ds = lexical ++ syntactic ∧
    (∀ d ∈ lexical, d.phase = .scanning) ∧ ∀ d ∈ syntactic, d.phase = .parsing

/-- The faults of a source whose names cannot be bound. -/
def Unbound (ds : List Diagnostic) : Prop := ds ≠ [] ∧ ∀ d ∈ ds, d.phase = .binding

/-- The fault that stopped a run: one of the program, or one of what takes its output. -/
def Stopped (ds : List Diagnostic) : Prop := ∃ d, ds = [d] ∧ d.phase = .running

theorem Unreadable.any_isStatic {ds : List Diagnostic} (h : Unreadable ds) :
    ds.any Diagnostic.isStatic = true := by
  obtain ⟨hne, lexical, syntactic, rfl, hlexical, hsyntactic⟩ := h
  refine Session.any_isStatic (fun d hd => Diagnostic.isStatic_iff.2 ?_) hne
  rcases List.mem_append.1 hd with hd | hd
  · simp [hlexical d hd]
  · simp [hsyntactic d hd]

theorem Unbound.any_isStatic {ds : List Diagnostic} (h : Unbound ds) :
    ds.any Diagnostic.isStatic = true :=
  Session.any_isStatic (fun d hd => Diagnostic.isStatic_iff.2 (by simp [h.2 d hd])) h.1

theorem Stopped.any_isStatic {ds : List Diagnostic} (h : Stopped ds) :
    ds.any Diagnostic.isStatic = false := by
  obtain ⟨d, rfl, hd⟩ := h
  cases hstatic : d.isStatic with
  | false => simp [hstatic]
  | true => exact absurd hd (Diagnostic.isStatic_iff.1 hstatic)

theorem Halt.phase_diagnostic {halt : Halt} {d : Diagnostic} (h : halt.diagnostic? = some d) :
    d.phase = .running := by
  cases halt <;> cases h <;> rfl

namespace Session

/-- An execution reports the fault that stopped it and nothing else, and no fault of a text. -/
theorem execute_phases (fuel : Nat) (s : Session) (program : List Stmt) :
    (execute fuel s program).2.log.hadError = s.log.hadError ∧
      ∃ ds, (execute fuel s program).2.log.diagnostics = s.log.diagnostics ++ ds ∧
        ((execute fuel s program).1 = .runtimeError ∧ Stopped ds ∨
          ((execute fuel s program).1 = .ok ∨ (execute fuel s program).1 = .outOfFuel) ∧
            ds = []) := by
  unfold execute
  split
  · exact ⟨rfl, [], by simp, .inr ⟨.inl rfl, rfl⟩⟩
  · split
    · rename_i d hd
      exact ⟨rfl, [d], rfl, .inl ⟨rfl, d, rfl, Halt.phase_diagnostic hd⟩⟩
    · exact ⟨rfl, [], by simp, .inr ⟨.inr rfl, rfl⟩⟩

variable {s : Session} {source : String}

/-- What is wrong with a source that does not run, unless the log remembers a fault of an earlier
text. -/
theorem complaints_phases (h : ¬ (s.log.hadError = false ∧ Clean s.fresh source)) :
    Unreadable (s.complaints source) ∨ Unbound (s.complaints source) ∨
      s.complaints source = [] ∧ s.log.hadError = true := by
  unfold complaints
  split
  next hlooked =>
    exact .inr (.inl ⟨fun hnil => h ⟨hlooked.1, hlooked.2, hnil⟩, fun _ => phase_resolve⟩)
  next hlooked =>
    by_cases hnil : (read s.fresh source).faults = []
    · exact .inr (.inr ⟨hnil, by simpa using fun hlog => hlooked ⟨hlog, hnil⟩⟩)
    · exact .inl ⟨hnil, _, _, rfl, fun _ => Lexer.phase_faults, fun _ => phase_parse⟩

theorem hadError_rejected (h : ¬ (s.log.hadError = false ∧ Clean s.fresh source)) :
    (s.rejected source).log.hadError = true := by
  simp only [rejected, Log.hadError_reportAll, Bool.or_eq_true]
  rcases complaints_phases h with hread | hbind | ⟨-, hlog⟩
  · exact .inr hread.any_isStatic
  · exact .inr hbind.any_isStatic
  · exact .inl hlog

/-- A source that does not run changes nothing in the machine but the recorded distances. -/
theorem machine_rejected (s : Session) (source : String) :
    (s.rejected source).machine =
      { s.machine with locals := (s.rejected source).machine.locals } := by
  unfold rejected
  split <;> rfl

/-- The tokens of a source that can be read are those of a program, so no declaration was left
out. -/
theorem derives_of_readable {fresh : NodeId} (h : (read fresh source).faults = []) :
    Derives (.rule .program) (Lexer.tokensOf (Lexer.scan source)) := by
  obtain ⟨front, last, htokens, hfront, -, hparse⟩ := exists_tokens h
  obtain ⟨rest, hr⟩ := Parser.reads_parse hparse
  rw [htokens]
  exact Parser.derives_of_reads_program hfront rfl hr

/-- The diagnostics of a run come from one stretch of its way, and tell its outcome. Nothing is
executed unless the whole source is a program. A run that is out of fuel has not ended yet. -/
theorem run_phases (fuel : Nat) (s : Session) (source : String) :
    ∃ ds, (s.run fuel source).2.log.diagnostics = s.log.diagnostics ++ ds ∧
      (Unreadable ds ∨ Unbound ds ∨ Stopped ds ∨ ds = []) ∧
      ((s.run fuel source).2.log.hadError = true ↔
        s.log.hadError = true ∨ Unreadable ds ∨ Unbound ds) ∧
      ((s.run fuel source).1 = .staticError ↔ (s.run fuel source).2.log.hadError = true) ∧
      ((s.run fuel source).1 = .staticError →
        (∀ fuel', s.run fuel' source = s.run fuel source) ∧
          (s.run fuel source).2.machine =
            { s.machine with locals := (s.run fuel source).2.machine.locals }) ∧
      ((s.run fuel source).1 = .staticError ∨
        Derives (.rule .program) (Lexer.tokensOf (Lexer.scan source))) ∧
      ((s.run fuel source).1 = .runtimeError ↔ Stopped ds) ∧
      ((s.run fuel source).1 = .ok ∨ (s.run fuel source).1 = .outOfFuel ↔
        ds = [] ∧ (s.run fuel source).2.log.hadError = false) := by
  by_cases hclean : s.log.hadError = false ∧ Clean s.fresh source
  · rw [run_of_clean hclean.1 hclean.2]
    obtain ⟨herror, ds, hds, hcases⟩ := execute_phases fuel
      ⟨s.prepared source, s.log, (read s.fresh source).fresh⟩ (read s.fresh source).statements
    have hquiet : ds.any Diagnostic.isStatic = false := by
      rcases hcases with ⟨-, hstopped⟩ | ⟨-, rfl⟩
      · exact hstopped.any_isStatic
      · rfl
    have hread : ¬ Unreadable ds := fun h => absurd h.any_isStatic (by simp [hquiet])
    have hbind : ¬ Unbound ds := fun h => absurd h.any_isStatic (by simp [hquiet])
    rw [hclean.1] at herror
    refine ⟨ds, hds, ?_, ?_, ?_, ?_, .inr (derives_of_readable hclean.2.1), ?_, ?_⟩
    · rcases hcases with ⟨-, hstopped⟩ | ⟨-, hnil⟩
      · exact .inr (.inr (.inl hstopped))
      · exact .inr (.inr (.inr hnil))
    · simp [herror, hclean.1, hread, hbind]
    · rcases hcases with ⟨h, -⟩ | ⟨h | h, -⟩ <;> simp [h, herror]
    · rcases hcases with ⟨h, -⟩ | ⟨h | h, -⟩ <;> simp [h]
    · rcases hcases with ⟨h, hstopped⟩ | ⟨h | h, rfl⟩
      · simp [h, hstopped]
      · simp [h, Stopped]
      · simp [h, Stopped]
    · rcases hcases with ⟨h, d, rfl, -⟩ | ⟨h | h, rfl⟩ <;> simp [h, herror]
  · have hrun : ∀ fuel, s.run fuel source = (.staticError, s.rejected source) :=
      fun fuel => run_of_not_clean fuel hclean
    have hphases := complaints_phases hclean
    have hstopped : ¬ Stopped (s.complaints source) := by
      intro h
      rcases hphases with hread | hbind | ⟨hnil, -⟩
      · exact absurd hread.any_isStatic (by simp [h.any_isStatic])
      · exact absurd hbind.any_isStatic (by simp [h.any_isStatic])
      · obtain ⟨d, hd, -⟩ := h
        simp [hnil] at hd
    refine ⟨s.complaints source, by rw [hrun]; rfl, ?_, ?_, ?_, ?_, .inl (by rw [hrun]), ?_, ?_⟩
    · exact hphases.imp_right fun h => h.imp_right fun h => .inr h.1
    · simp only [hrun, hadError_rejected hclean, true_iff]
      rcases hphases with hread | hbind | ⟨-, hlog⟩
      · exact .inr (.inl hread)
      · exact .inr (.inr hbind)
      · exact .inl hlog
    · simp [hrun, hadError_rejected hclean]
    · intro _
      simp only [hrun, implies_true, true_and]
      exact machine_rejected s source
    · simp [hrun, hstopped]
    · simp [hrun, hadError_rejected hclean]

end Session

end Lox
