import Lox.Proofs.Scope.Agreement
import Lox.Proofs.Session.Agreement

/-!
# Names of local variables do not matter

A program that was read is run in two steps: its names are bound, and if nothing is wrong with it
then it is executed. A program in which local variables have another name goes through both steps as
the program does, whatever the session has run before.
-/

namespace Lox

/-- Only numbers and depths are recorded. -/
theorem Locals.noteAll_congr (locals : Locals) {bs bs' : List Binding}
    (h : bs'.map (fun b => (b.id, b.depth)) = bs.map fun b => (b.id, b.depth)) :
    locals.noteAll bs' = locals.noteAll bs := by
  have hnote : ∀ cs : List Binding, locals.noteAll cs =
      (cs.map fun b => (b.id, b.depth)).foldl (fun t p => t.note ⟨p.1, "", p.2⟩) locals := by
    intro cs
    rw [List.foldl_map]
    rfl
  rw [hnote, hnote, h]

namespace Session

/-- A program that nothing is wrong with. -/
theorem runProgram_of_silent {fuel : Nat} {s : Session} {program : List Stmt}
    (h : (resolve program).faults = []) :
    s.runProgram fuel program =
      if s.log.hadError then
        (.staticError, { s with machine := s.machine.noteAll (resolve program).bindings })
      else execute fuel { s with machine := s.machine.noteAll (resolve program).bindings }
        program := by
  simp only [runProgram, h, Log.reportAll_nil]

variable {s : Session} {ps : List (List Stmt)} {τ : List Event}

/-- A program whose names are bound does the same with another name for local variables. -/
theorem Sound.execute_apply {program : List Stmt} {fresh : NodeId} (h : s.Sound ps τ)
    (hnumbered : Stmts.Numbered s.fresh program fresh) (hwf : Stmts.WellFormed program)
    (hsilent : (resolve program).faults = []) (r : Renaming) (hnew : r.new ∉ Stmts.names program)
    (fuel : Nat) {t : Session}
    (ht : t = ⟨s.machine.noteAll (resolve program).bindings, s.log, fresh⟩) :
    (t.execute fuel (r.apply program)).1 = (t.execute fuel program).1 ∧
      (t.execute fuel (r.apply program)).2.machine.sink = (t.execute fuel program).2.machine.sink ∧
        (t.execute fuel (r.apply program)).2.log = (t.execute fuel program).2.log := by
  have hbound : t.Sound (ps ++ [program]) τ := ht ▸ h.bind hnumbered hwf hsilent s.log
  have hrecorded : ∀ v ∈ Stmts.visits .outside [] program,
      recorded program v.id = t.machine.locals[v.id]? := by
    intro v hv
    rw [recorded_of_mem_visits hnumbered hwf hsilent hv, hbound.inv.recorded v]
    rw [visits_append]
    exact List.mem_append_right _ (by simpa [visits] using hv)
  have hprogram : Stmts.Alike (r.likeness fun i j d => j = i ∧ d = t.machine.locals[i]?) [] program
      (r.apply program) := r.alike_apply hwf hsilent hnew fun v hv => ⟨rfl, hrecorded v hv⟩
  have hmachine : t.machine.Alike (r.likeness fun i j d => j = i ∧ d = t.machine.locals[i]?) .none
      { t.machine with locals := t.machine.locals } := by
    refine hbound.machine_alike (fun _ => rfl) (fun v _ => ⟨_, rfl, rfl⟩) ?_
    rintro i j d ⟨rfl, rfl⟩
    exact ⟨rfl, rfl⟩
  obtain ⟨houtcome, hlog, marks, hev⟩ := hbound.execute_alike hwf hmachine hprogram
    (f := id) (fun n n' _ hn => by cases hn; rfl) rfl fuel
  exact ⟨houtcome, hev.alike.sink, by simpa only [Log.map_id] using hlog⟩

/-- Names of local variables do not matter: a program that nothing is wrong with may have another
name, which it does not use, for the variables and parameters of some name in any scopes. Nothing is
wrong with it then, its nodes are bound at the same depths, and whatever the session has run before,
it ends in the same way, prints the same, and reports the same. -/
theorem runProgram_apply {sink : Sink} {clock : Clock} {steps : List Step} {s : Session}
    (hs : s = (initial sink clock).after steps) {program : List Stmt} {fresh : NodeId}
    (hnumbered : Stmts.Numbered s.fresh program fresh) (hwf : Stmts.WellFormed program)
    (haccepted : (resolve program).faults = []) (r : Renaming)
    (hnew : r.new ∉ Stmts.names program) (fuel : Nat) :
    (resolve (r.apply program)).faults = [] ∧
      ((resolve (r.apply program)).bindings.map fun b => (b.id, b.depth)) =
        ((resolve program).bindings.map fun b => (b.id, b.depth)) ∧
      (runProgram fuel { s with fresh := fresh } (r.apply program)).1 =
        (runProgram fuel { s with fresh := fresh } program).1 ∧
      (runProgram fuel { s with fresh := fresh } (r.apply program)).2.machine.sink =
        (runProgram fuel { s with fresh := fresh } program).2.machine.sink ∧
      (runProgram fuel { s with fresh := fresh } (r.apply program)).2.log =
        (runProgram fuel { s with fresh := fresh } program).2.log := by
  obtain ⟨hsilent, hbindings⟩ := resolve_apply r hnumbered hwf haccepted hnew
  have hsound := sound_after sink clock steps
  rw [← hs] at hsound
  have hnoted : s.machine.noteAll (resolve (r.apply program)).bindings =
      s.machine.noteAll (resolve program).bindings := by
    rw [Machine.noteAll, Machine.noteAll, Locals.noteAll_congr _ hbindings]
  refine ⟨hsilent, hbindings, ?_⟩
  rw [runProgram_of_silent hsilent, runProgram_of_silent haccepted, hnoted]
  split
  · exact ⟨rfl, rfl, rfl⟩
  · exact hsound.execute_apply hnumbered hwf haccepted r hnew fuel rfl

/-- A variable that shadows a global one. A function that is declared before it refers to the global
one. -/
theorem runProgram_apply_shadowed :
    let parsed := read 0 "var x; { fun f() { print x; } var x = f; x(); }"
    let r : Renaming := ⟨⟨"x", "y", by decide, by decide⟩, fun _ => true⟩
    let s : Session := { initial {} {} with fresh := parsed.fresh }
    Stmts.names (r.apply parsed.statements) = ["x", "f", "x", "y", "f", "y"] ∧
      (resolve (r.apply parsed.statements)).faults = [] ∧
        (s.runProgram 20 (r.apply parsed.statements)).1 = .ok ∧
          (s.runProgram 20 (r.apply parsed.statements)).2.machine.sink.lines = #["nil"] := by
  intro parsed r s
  have hread : Stmts.Numbered (initial {} {}).fresh parsed.statements parsed.fresh ∧
      Stmts.WellFormed parsed.statements := statements_read (by decide +kernel : parsed.faults = [])
  have hinitial : initial {} {} = (initial {} {}).after [] := rfl
  have haccepted : (resolve parsed.statements).faults = [] := by decide +kernel
  have hnames : r.new ∉ Stmts.names parsed.statements ∧
      Stmts.names (r.apply parsed.statements) = ["x", "f", "x", "y", "f", "y"] := by decide +kernel
  have hrun : (s.runProgram 20 parsed.statements).1 = .ok ∧
      (s.runProgram 20 parsed.statements).2.machine.sink.lines = #["nil"] := by decide +kernel
  -- What the program is does not matter for the rest.
  clear_value parsed
  obtain ⟨hfaults, -, houtcome, hsink, -⟩ :=
    runProgram_apply hinitial hread.1 hread.2 haccepted r hnames.1 20
  exact ⟨hnames.2, hfaults, houtcome.trans hrun.1, (congrArg Sink.lines hsink).trans hrun.2⟩

end Session

end Lox
