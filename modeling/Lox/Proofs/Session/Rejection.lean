import Lox.Proofs.Session.Trails

/-!
# Sources that are rejected leave no trace

A source with a fault in its text does not run. It still takes numbers for its nodes, and if the
fault is one of its names then distances for these numbers are recorded. Neither can be seen: in a
session that has forgotten the diagnostics of such a source, the nodes of later sources have other
numbers, and apart from this all goes on as if the source had never been there.
-/

namespace Lox

namespace Session

variable {s : Session} {ps : List (List Stmt)} {τ : List Event}

theorem execute_ne_staticError (fuel : Nat) (s : Session) (program : List Stmt) :
    (execute fuel s program).1 ≠ .staticError := by
  unfold execute
  split
  · nofun
  · split <;> nofun

/-- A session that has left out numbers, and recorded distances for them. -/
theorem Sound.trails_skip (h : s.Sound ps τ) {fresh : NodeId} (bs : List Binding)
    (hle : s.fresh ≤ fresh) (hbs : ∀ b ∈ bs, s.fresh ≤ b.id) :
    Trails .exact s.fresh (fresh - s.fresh) s ⟨s.machine.noteAll bs, s.log, fresh⟩ where
  machine := ⟨.none, h.alike_noteAll (fun _ => rfl) hbs (.inl (Nat.le_refl _))⟩
  log := rfl
  fresh := (Nat.add_sub_cancel' hle).symm
  le := Nat.le_refl _

/-- A session that was told a source that does not run, and has forgotten what was wrong. -/
theorem Sound.trails_rejected (h : s.Sound ps τ) (hlog : s.log = {}) (source : String) :
    Trails .exact s.fresh ((read s.fresh source).fresh - s.fresh) s
      (s.rejected source).resetLog := by
  have hle := le_fresh_read s.fresh source
  have hreset : (s.rejected source).resetLog =
      ⟨(s.rejected source).machine, s.log, (read s.fresh source).fresh⟩ := by
    rw [hlog]
    rfl
  rw [hreset]
  unfold rejected
  by_cases hlooked : s.Looked source
  · simp only [if_pos hlooked]
    exact h.trails_skip _ hle fun b hb => (bounds_read _ _ b hb).1
  · simp only [if_neg hlooked]
    exact h.trails_skip [] hle (List.forall_mem_nil _)

/-- A rejected source leaves no trace: whatever was done with a session before, if its log is clear
and it is told to run a source in whose text something is wrong, then once it has forgotten what
this was, all later steps end in the same way, print the same and report the same as if it had never
been told. Only the nodes of programs that are read later have other numbers. -/
theorem observations_rejected {sink : Sink} {clock : Clock} {steps : List Step} {s : Session}
    (hs : s = (initial sink clock).after steps) (hlog : s.log = {}) {fuel : Nat} {source : String}
    (hrun : (s.run fuel source).1 = .staticError) (later : List Step) :
    (s.run fuel source).2.resetLog.observations later =
      (s.observations later).map
        (Observation.move ((read s.fresh source).fresh - s.fresh)) := by
  have hsound := sound_after sink clock steps
  rw [← hs] at hsound
  have hruns : ¬ s.Runs source := by
    intro hruns
    rw [run_of_clean hruns.1 hruns.2] at hrun
    exact absurd hrun (execute_ne_staticError _ _ _)
  rw [run_of_not_clean fuel hruns]
  have hlater := (hsound.trails_rejected hlog source).observations hsound
    ((hsound.reject source).withLog _) (fun _ => rfl) later
  have hseen : Observation.map Sight.exact.view = id := funext Observation.map_id
  rwa [hseen, List.map_id, List.map_id] at hlater

/-- A source with a variable that is not used. The distance to another variable is recorded before
this is found out, for the number that a node of a later source would have had. -/
theorem observations_rejected_unused :
    let s := initial {} {}
    let source := "{ var a; { var b; a; } }"
    let later := [Step.run 9 "{ var c; print c; }", Step.run 9 "{ var d; }", Step.takeDiagnostics]
    (s.run 9 source).1 = .staticError ∧ (s.run 9 source).2.machine.locals[0]? = some 1 ∧
      (s.observations later).map Observation.printed = [#["nil"], #["nil"], #["nil"]] ∧
        (s.run 9 source).2.resetLog.observations later =
          (s.observations later).map (Observation.move 1) := by
  intro s source later
  have hrun : (s.run 9 source).1 = .staticError := by decide +kernel
  have hrecorded : (s.run 9 source).2.machine.locals[0]? = some 1 := by decide +kernel
  have hprinted : (s.observations later).map Observation.printed =
      [#["nil"], #["nil"], #["nil"]] := by decide +kernel
  have hnumbers : (read s.fresh source).fresh - s.fresh = 1 := by decide +kernel
  have hs : s = (initial {} {}).after [] := rfl
  have hlog : s.log = {} := rfl
  clear_value source later
  have hlater := observations_rejected hs hlog hrun later
  rw [hnumbers] at hlater
  exact ⟨hrun, hrecorded, hprinted, hlater⟩

end Session

end Lox
