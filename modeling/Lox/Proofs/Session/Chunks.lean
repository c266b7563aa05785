import Lox.Proofs.Session.Joining
import Lox.Proofs.Session.Trails

/-!
# Sources run in parts

A source may be run in one go or in parts that end with lines. If nothing is wrong with the text
of the parts and the first one runs to its end, nobody can tell the difference, then or later, but
by the lines on which running programs fail.
-/

namespace Lox

namespace Session

variable {s : Session} {ps : List (List Stmt)} {τ : List Event} {first second : String}

/-- What a run to the end leaves behind. -/
theorem Sound.run_ok (h : s.Sound ps τ) (hlog : s.log.hadError = false)
    (hclean : Clean s.fresh first) {fuel : Nat} (hok : (s.run fuel first).1 = .ok) :
    ∃ m τ', interpret fuel (read s.fresh first).statements (s.prepared first) = .ok () m ∧
      (s.run fuel first).2 = ⟨m, s.log, (read s.fresh first).fresh⟩ ∧
      Moves (visits (ps ++ [(read s.fresh first).statements])) τ τ' (s.prepared first) m := by
  have hsafe := h.safe_interpret hclean fuel
  unfold Safe at hsafe
  rw [run_of_clean hlog hclean, execute] at hok ⊢
  dsimp only at hok ⊢
  cases hrun : interpret fuel (read s.fresh first).statements (s.prepared first) with
  | ok a m =>
    rw [hrun] at hsafe
    exact ⟨m, _, rfl, rfl, hsafe.1⟩
  | error halt m =>
    rw [hrun] at hok
    cases halt <;> cases hok

/-- A program behind another one goes on where that one ends. -/
theorem execute_append {fuel : Nat} {m m' : Machine} {log : Log} {fresh : NodeId}
    {program : List Stmt} (h : interpret fuel program m = .ok () m') (program' : List Stmt) :
    execute fuel ⟨m, log, fresh⟩ (program ++ program') =
      execute fuel ⟨m', log, fresh⟩ program' := by
  have hrun : interpret fuel (program ++ program') m = interpret fuel program' m' := by
    induction program generalizing m with
    | nil =>
      cases h
      rfl
    | cons s program ih =>
      simp only [List.cons_append, interpret, Bind.bind, EStateM.bind] at h ⊢
      cases hs : Lox.execute fuel s m with
      | ok a m₁ =>
        rw [hs] at h
        exact ih h
      | error halt m₁ =>
        rw [hs] at h
        cases h
  unfold execute
  rw [hrun]

/-- A program is like itself further down. -/
theorem alike_relabel_blind {program : List Stmt} {fresh : NodeId} (hwf : Stmts.WellFormed program)
    (hlt : ∀ v ∈ Stmts.visits .outside [] program, v.id < fresh) (locals : Locals) (lines : Nat) :
    Stmts.Alike (Sight.blind.skipping 0 0 fresh locals) [] program
      (Stmts.relabel (.move lines 0) program) :=
  Stmts.alike_relabel (fun _ => trivial) (List.forall_mem_nil _) _ hwf fun v hv =>
    ⟨_, hlt v hv, rfl, rfl⟩

/-- A program does the same if distances are recorded beforehand for nodes that are not there yet.
The session in which they are recorded then goes the same way. -/
theorem Sound.interpret_noted {program : List Stmt} (h : s.Sound (ps ++ [program]) τ)
    (hwf : Stmts.WellFormed program) {bs : List Binding} (hbs : ∀ b ∈ bs, s.fresh ≤ b.id)
    {fuel : Nat} {m : Machine} (hrun : interpret fuel program s.machine = .ok () m) {fresh : NodeId}
    (hle : s.fresh ≤ fresh) (log : Log) :
    ∃ m', interpret fuel program (s.machine.noteAll bs) = .ok () m' ∧
      Trails .blind 0 0 ⟨m.noteAll bs, log, fresh⟩ ⟨m', log, fresh⟩ := by
  have hlt : ∀ v ∈ Stmts.visits .outside [] program, v.id < s.fresh := by
    refine fun v hv => (h.ranged.bounds v ?_).2
    rw [visits_append]
    exact List.mem_append_right _ (by simpa [visits] using hv)
  have hself := alike_relabel_blind hwf hlt s.machine.locals 0
  rw [Stmts.relabel_zero] at hself
  obtain ⟨marks, m₁, m', hev, ⟨hrun₁, hrun'⟩ | ⟨halt, halt', -, hrun₁, -⟩⟩ :=
    h.interpret_alike hwf (h.alike_noteAll (fun _ => trivial) hbs (.inr rfl)) hself fuel
  · obtain rfl : m₁ = m := (EStateM.Result.ok.inj (hrun₁.symm.trans hrun)).2
    refine ⟨m', hrun', ⟨marks, hev.alike.heap.withSame ?_, hev.alike.nonempty, hev.alike.chain,
      hev.alike.bounded, hev.alike.depth, hev.alike.sink, hev.alike.clock, ?_⟩, rfl, rfl,
      Nat.zero_le _⟩
    · rintro i j d ⟨hi, hj, hd⟩
      refine ⟨Nat.lt_of_lt_of_le hi hle, hj, Eq.trans ?_ hd⟩
      rw [← hev.locals]
      exact Locals.getElem?_noteAll_of_ne fun b hb =>
        Nat.ne_of_gt (Nat.lt_of_lt_of_le hi (hbs b hb))
    · rintro i j d ⟨-, rfl, hd⟩
      refine ⟨hd, Eq.trans ?_ hd⟩
      rw [hev.locals']
      simp only [Machine.noteAll, hev.locals]
  · rw [hrun₁] at hrun
    cases hrun

/-- Two sources run one after the other end as one source, and leave sessions behind that go the
same way but for lines. -/
theorem Sound.run_join (h : s.Sound ps τ) (hlog : s.log.hadError = false)
    (hfirst : Clean s.fresh first) (hsecond : Clean (read s.fresh first).fresh second) {fuel : Nat}
    (hok : (s.run fuel first).1 = .ok) :
    (s.run fuel (first ++ "\n" ++ second)).1 = ((s.run fuel first).2.run fuel second).1 ∧
      Trails .blind 0 0 ((s.run fuel first).2.run fuel second).2
        (s.run fuel (first ++ "\n" ++ second)).2 := by
  obtain ⟨m, τ', hrun, hs', hmoves⟩ := h.run_ok hlog hfirst hok
  have hsound := h.prepare hfirst s.log
  obtain ⟨hclean, hbindings⟩ := hfirst.join hsecond
  obtain ⟨lines, hread⟩ := read_join hfirst.1 hsecond.1
  obtain ⟨hnumbered, hwf⟩ := hsecond.statements
  have hranged := hnumbered.ranged .outside []
  -- In the one run, distances for the second source are recorded before the first one runs.
  have hprepared : s.prepared (first ++ "\n" ++ second) = (s.prepared first).noteAll
      (resolve (read (read s.fresh first).fresh second).statements).bindings := by
    simp only [prepared, Machine.noteAll, hbindings, Locals.noteAll, List.foldl_append]
  obtain ⟨m', hrun', htrails⟩ := hsound.interpret_noted hfirst.statements.2
    (fun b hb => (bounds_read _ _ b hb).1) hrun hranged.le s.log
  have htwo : run fuel ⟨m, s.log, (read s.fresh first).fresh⟩ second = _ :=
    run_of_clean hlog hsecond
  rw [hs', htwo, run_of_clean hlog hclean, hprepared, hread, execute_append hrun']
  exact htrails.execute ((hsound.moves hmoves).prepare hsecond s.log) hwf
    (alike_relabel_blind hwf (fun v hv => (hranged.bounds v hv).2) _ lines) fuel

/-- Sessions that go the same way cannot be told apart. -/
theorem Trails.resembles {s' : Session} {ps' : List (List Stmt)} {τ' : List Event}
    (h : Trails .blind 0 0 s s') (hs : s.Sound ps τ) (hs' : s'.Sound ps' τ') :
    s'.Resembles s := by
  refine ⟨congrArg Sink.lines h.sink_eq, h.log, fun later => ?_⟩
  have hmove : Observation.move 0 = id := by
    funext o
    obtain ⟨reply, printed, log⟩ := o
    cases reply <;> simp [Observation.move, Reply.move, Stmts.relabel_zero]
  have hlater := h.observations hs hs' (fun _ => trivial) later
  rwa [hmove, List.map_id] at hlater

/-! ## Lines -/

theorem Clean.at (h : Clean 0 first) (i : NodeId) : Clean i first := by
  simpa using h.move i

theorem clean_empty : Clean 0 "" := ⟨rfl, rfl⟩

/-- Nothing happens when there is nothing to run. -/
theorem run_empty {fuel : Nat} (hlog : s.log.hadError = false) : s.run fuel "" = (.ok, s) := by
  rw [run_of_clean hlog (clean_empty.at _)]
  rfl

theorem clean_intercalate {lines : List String} (h : ∀ line ∈ lines, Clean 0 line) :
    Clean 0 ("\n".intercalate lines) := by
  induction lines with
  | nil => exact clean_empty
  | cons line rest ih =>
    have hline := h line (List.mem_cons_self ..)
    cases rest with
    | nil => simpa using hline
    | cons next rest =>
      have hrest := ih fun l hl => h l (List.mem_cons_of_mem _ hl)
      rw [String.intercalate_cons_cons]
      exact (hline.join (hrest.at _)).1

/-- A text whose lines run to their ends one after the other does so as a whole too. -/
theorem Sound.run_intercalate {fuel : Nat} {lines : List String} (h : s.Sound ps τ)
    (hlog : s.log.hadError = false) (hclean : ∀ line ∈ lines, Clean 0 line)
    (hok : ∀ o ∈ s.observations (lines.map (Step.run fuel)), o.reply = .ran .ok) :
    (s.run fuel ("\n".intercalate lines)).1 = .ok ∧
      (s.run fuel ("\n".intercalate lines)).2.Resembles
        (s.after (lines.map (Step.run fuel))) := by
  induction lines generalizing s ps τ with
  | nil =>
    rw [String.intercalate_nil, run_empty hlog]
    exact ⟨rfl, .refl s⟩
  | cons line rest ih =>
    have hline := (hclean line (List.mem_cons_self ..)).at s.fresh
    have hrun : (s.run fuel line).1 = .ok :=
      Reply.ran.inj (hok _ (List.mem_cons_self ..))
    cases rest with
    | nil =>
      rw [String.intercalate_singleton]
      exact ⟨hrun, .refl _⟩
    | cons next rest =>
      have hrest := clean_intercalate fun l hl => hclean l (List.mem_cons_of_mem line hl)
      obtain ⟨m, τ', -, hs', hmoves⟩ := h.run_ok hlog hline hrun
      have hlog' : (s.run fuel line).2.log.hadError = false := by rw [hs']; exact hlog
      obtain ⟨houtcome, hsession⟩ := h.run_join hlog hline (hrest.at _) hrun
      obtain ⟨houtcome', hsession'⟩ := ih (h.step (.run fuel line)) hlog'
        (fun l hl => hclean l (List.mem_cons_of_mem _ hl))
        fun o ho => hok o (List.mem_cons_of_mem _ ho)
      rw [String.intercalate_cons_cons]
      exact ⟨houtcome.trans houtcome', (hsession.resembles
        (h.after [.run fuel line, .run fuel ("\n".intercalate (next :: rest))])
        (h.step (.run fuel _))).trans hsession'⟩

end Session

end Lox
