import Lox.Proofs.Machine.Callees
import Lox.Proofs.Machine.GrowingRuns
import Lox.Proofs.Session.Names
import Lox.Proofs.Session.Returns
import Lox.Proofs.Syntax.Equality

/-!
# Moments of a session

A session runs programs one after the other, and at each moment some runs are active. The heap goes
on to grow from one program to the next. So what the language provides in a frame at one moment is
what it provides there at all moments at which there is the frame, and functions, classes and the
classes of instances stay what they are: at all moments they are what they are in the end.
-/

namespace Lox

namespace Session

variable {s : Session} {steps : List Step} {outer : List Run}

/-! ## Heaps of sessions -/

theorem orderly_initial (sink : Sink) (clock : Clock) :
    (initial sink clock).machine.heap.Orderly where
  functions f := ⟨⟨⟨by decide, by decide⟩, nofun, trivial⟩, List.nodup_nil, [], nofun⟩
  methods c name m hm := by cases hm

/-- A step lets the heap grow. -/
theorem above_step (h : s.machine.heap.Orderly) (step : Step) :
    (step.apply s).machine.Above s.machine.heap := by
  have hself : s.machine.Above s.machine.heap := ⟨.refl _, h⟩
  cases step with
  | run fuel source =>
    by_cases hruns : s.Runs source
    · rw [Step.apply, run_of_clean hruns.1 hruns.2, machine_execute]
      exact keepsAbove_interpret _ fuel (orderly_of_resolve hruns.2.statements.2 hruns.2.2) _ hself
    · rw [Step.apply, run_of_not_clean fuel hruns, rejected]
      split <;> exact hself
  | parse source => exact hself
  | reset => exact hself
  | takeDiagnostics => exact hself

/-- Whatever is done with a session, its heap grows. -/
theorem above_after (h : s.machine.heap.Orderly) (steps : List Step) :
    (s.after steps).machine.Above s.machine.heap := by
  induction steps generalizing s with
  | nil => exact ⟨.refl _, h⟩
  | cons step steps ih =>
    have hstep := above_step h step
    have hrest := ih hstep.2
    exact ⟨hstep.1.trans hrest.1, hrest.2⟩

/-! ## Moments -/

/-- The runs that are active at some moment while a session does the given steps, the innermost one
first. -/
inductive Moment : Session → List Step → List Run → Prop
  | now {s : Session} {fuel : Nat} {source : String} {steps : List Step} {stack : List Run}
      (hruns : s.Runs source)
      (h : Run.Active ⟨fuel, .program (read s.fresh source).statements, s.prepared source⟩ stack) :
    Moment s (.run fuel source :: steps) stack
  | later {s : Session} {step : Step} {steps : List Step} {stack : List Run}
      (h : Moment (step.apply s) steps stack) : Moment s (step :: steps) stack

theorem Moment.begin {r r' : Run} (h : Moment s steps (r :: outer)) (hbegins : r.Begins r') :
    Moment s steps (r' :: r :: outer) := by
  generalize hstack : r :: outer = stack at h
  induction h with
  | now hruns h =>
    subst hstack
    exact .now hruns (h.begin hbegins)
  | later _ ih => exact .later (ih hstack)

/-- What holds at a moment if `us` are the nodes of the programs of the session, `events` is all that
happens in it, and `heap` is the heap that it ends with. -/
structure Observed (us : List Visit) (events : List Event) (heap : Heap) (r : Run)
    (outer : List Run) : Prop where
  orderly : r.Orderly
  grows : r.machine.heap.Grows heap
  grows_after : r.after.heap.Grows heap
  placed : ∃ vs before, r.Placed vs before ∧ before ++ r.events ⊆ events ∧ vs ⊆ us
  chain : r.closure? = none → ∀ c, Run.running? outer = some c →
    ∃ inner, r.chain = inner ++ c.chain ∧ ∀ id ∈ inner, MadeForCode events id

/-- What is known of a run of orderly code at which the events and the heap of a session end. -/
theorem Observed.of_active {start r : Run} {us vs : List Visit} {before events : List Event}
    {heap : Heap} (h : start.Active (r :: outer)) (hplaced : start.Placed vs before)
    (hvs : vs ⊆ us) (horderly : start.Orderly) (hevents : before ++ start.events ⊆ events)
    (hheap : start.after.heap.Grows heap) : Observed us events heap r outer := by
  obtain ⟨hr, -, hbehind⟩ := Run.grows_of_active h horderly
  obtain ⟨mid, rest, hr', hsplit⟩ := Run.placed_of_active h hplaced
  have hsub : start.events ⊆ events := fun e he => hevents (List.mem_append_right _ he)
  refine ⟨hr, hr.above_after.1.trans (hbehind.trans hheap), hbehind.trans hheap,
    ⟨vs, _, hr', fun e he => hevents ?_, hvs⟩, fun hcode c hc => ?_⟩
  · rw [hsplit, ← List.append_assoc, ← List.append_assoc]
    exact List.mem_append_left _ he
  · obtain ⟨inner, hchain, hinner⟩ := Run.exists_chain_of_active h hplaced hcode hc
    exact ⟨inner, hchain, fun id hid => (hinner id hid).mono hsub⟩

/-- What is known at each moment of a session. By induction on the steps before the program. -/
theorem Moment.observed_of_sound {ps : List (List Stmt)} {τ : List Event} {r : Run}
    (h : Moment s steps (r :: outer)) (hsound : s.Sound ps τ) (horderly : s.machine.heap.Orderly) :
    Observed (visits (ps ++ s.programs steps)) (τ ++ s.events steps)
      (s.after steps).machine.heap r outer := by
  generalize hstack : r :: outer = stack at h
  induction h generalizing ps τ with
  | @now s fuel source steps stack hruns h =>
    subst hstack
    have hprepared := hsound.prepare hruns.2 s.log
    have hcode := orderly_of_resolve hruns.2.statements.2 hruns.2.2
    refine .of_active h ⟨hprepared.inv, hruns.2.statements.2, fun v hv => ?_, ?_⟩
      (fun v hv => ?_) ⟨horderly, hcode⟩ ?_ ?_
    · rw [visits_append]
      exact List.mem_append_right _ (by simpa [visits] using hv)
    · have hchain : (s.prepared source).chain = globalChain := hprepared.chain
      rw [hchain]
      exact .outermost hprepared.inv.size
    · have hprogram : Step.program? s (.run fuel source) =
          some (read s.fresh source).statements := if_pos hruns
      rw [programs, hprogram, Option.toList_some, ← List.append_assoc, visits_append]
      exact List.mem_append_left _ hv
    · have hrun : Step.events s (.run fuel source) =
          interpretTrace .frames fuel (read s.fresh source).statements (s.prepared source) :=
        if_pos hruns
      rw [events, hrun]
      exact fun e he => (List.mem_append.1 he).elim (List.mem_append_left _)
        fun he => List.mem_append_right _ (List.mem_append_left _ he)
    · have hstep := above_step horderly (.run fuel source)
      have hend : (Step.apply s (.run fuel source)).machine =
          (interpret fuel (read s.fresh source).statements).after (s.prepared source) := by
        rw [Step.apply, run_of_clean hruns.1 hruns.2, machine_execute]
      rw [Run.after_eq]
      change ((interpret fuel _).after _).heap.Grows _
      rw [← hend]
      exact (above_after hstep.2 steps).1
  | @later s step steps stack _ ih =>
    have hrest := ih (hsound.step step) (above_step horderly step).2 hstack
    rw [List.append_assoc, List.append_assoc] at hrest
    exact hrest

theorem Moment.observed {sink : Sink} {clock : Clock} {r : Run}
    (h : Moment (initial sink clock) steps (r :: outer)) :
    Observed (visits ((initial sink clock).programs steps)) ((initial sink clock).events steps)
      ((initial sink clock).after steps).machine.heap r outer :=
  h.observed_of_sound (sound_initial sink clock) (orderly_initial sink clock)

/-- The first moment of a new session that runs a source with the given program and bindings. -/
theorem Moment.first {fuel : Nat} {source : String} {program : List Stmt} {bs : List Binding}
    (hruns : (initial {} {}).Runs source) (hprogram : (read 0 source).statements = program)
    (hbindings : (resolve program).bindings = bs) :
    Moment (initial {} {}) [.run fuel source]
      [⟨fuel, .program program, (Machine.initial {} {}).noteAll bs⟩] := by
  subst hprogram hbindings
  exact .now hruns .start

end Session

/-! ## Code and machines that are written out -/

/-- A name in the first line. -/
abbrev Token.named (text : String) : Token := ⟨.symbol .identifier, text, 1⟩

abbrev Token.paren : Token := ⟨.symbol .rightParen, ")", 1⟩

/-- A machine with the given things on its heap. -/
abbrev Machine.holding (m : Machine) (frames : List Frame) (functions : List Closure)
    (classes : List ClassObject) (instances : List Instance) (chain : Chain) (depth : Nat) :
    Machine :=
  { m with
    heap := {
      frames := ⟨frames.toArray⟩
      functions := functions.toArray
      classes := classes.toArray
      instances := instances.toArray }
    chain := chain
    depth := depth }

end Lox
