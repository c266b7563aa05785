import Lox.Proofs.Machine.Soundness
import Lox.Proofs.Scope.Consistency
import Lox.Proofs.Session.Reports
import Lox.Proofs.Token.Spelling

/-!
# Histories of sessions

A session runs sources, and in between it reads others, and forgets or hands out diagnostics. Its
history is known from the session it starts as: the programs that run, and what happens to frames
while they do. Whatever the history, programs that ended with a fault included, the machine of the
session is one on which programs with bound names run safely.
-/

namespace Lox

namespace Session

/-- A thing that is done with a session. -/
inductive Step where
  | run (fuel : Nat) (source : String)
  | parse (source : String)
  | reset
  | takeDiagnostics

/-- The session after a step. -/
def Step.apply (s : Session) : Step → Session
  | run fuel source => (s.run fuel source).2
  | parse source => (s.parse source).2
  | reset => s.resetLog
  | takeDiagnostics => s.takeDiagnostics.2

def after (s : Session) (steps : List Step) : Session := steps.foldl Step.apply s

/-- A source runs: the log remembers no fault of a text, and nothing is wrong with this one. -/
def Runs (s : Session) (source : String) : Prop := s.log.hadError = false ∧ Clean s.fresh source

instance (s : Session) (source : String) : Decidable (s.Runs source) :=
  inferInstanceAs (Decidable (_ ∧ _))

/-- What happens while a source runs. -/
def runEvents (fuel : Nat) (s : Session) (source : String) : List Event :=
  if s.Runs source then
    interpretTrace .frames fuel (read s.fresh source).statements (s.prepared source)
  else []

/-- The program that runs in a step. -/
def Step.program? (s : Session) : Step → Option (List Stmt)
  | run _ source => if s.Runs source then some (read s.fresh source).statements else none
  | parse _ | reset | takeDiagnostics => none

/-- What happens in a step. -/
def Step.events (s : Session) : Step → List Event
  | run fuel source => s.runEvents fuel source
  | parse _ | reset | takeDiagnostics => []

/-- The programs that run in several steps. -/
def programs (s : Session) : List Step → List (List Stmt)
  | [] => []
  | step :: steps => (step.program? s).toList ++ programs (step.apply s) steps

/-- What happens in several steps. -/
def events (s : Session) : List Step → List Event
  | [] => []
  | step :: steps => step.events s ++ events (step.apply s) steps

/-! ## Soundness -/

def visits (programs : List (List Stmt)) : List Visit :=
  programs.flatMap (Stmts.visits .outside [])

/-- What holds of a session that has run the given programs, with the given events. -/
structure Sound (s : Session) (programs : List (List Stmt)) (events : List Event) : Prop where
  ranged : Ranged 0 s.fresh (visits programs)
  inv : Inv (visits programs) events s.machine.heap s.machine.locals
  chain : s.machine.chain = globalChain
  unrecorded : ∀ id, s.fresh ≤ id → s.machine.locals[id]? = none
  resolved : ∀ program ∈ programs,
    (resolve program).bindings = (Stmts.visits .outside [] program).map Visit.binding

theorem sound_initial (sink : Sink) (clock : Clock) : (initial sink clock).Sound [] [] where
  ranged := .nil
  inv := {
    allowed := nofun
    within := nofun
    recorded := nofun
    size := Nat.zero_lt_one
    openings := rfl
    placed := nofun
    functions := fun f => .inl ⟨rfl, rfl, rfl⟩
    methods := fun c name m hm => by cases hm
    vacant := fun _ hp => by cases hp }
  chain := rfl
  unrecorded id _ := Std.TreeMap.getElem?_emptyc
  resolved := nofun

variable {s : Session} {ps : List (List Stmt)} {τ : List Event} {source : String}

theorem visits_append (ps qs : List (List Stmt)) : visits (ps ++ qs) = visits ps ++ visits qs :=
  List.flatMap_append

/-- What a source without a fault is read as. -/
theorem statements_read {fresh : NodeId} (h : (read fresh source).faults = []) :
    Stmts.Numbered fresh (read fresh source).statements (read fresh source).fresh ∧
      Stmts.WellFormed (read fresh source).statements :=
  ⟨(Parser.clause_parse (List.append_eq_nil_iff.1 h).2).2,
    wellFormed_parse (fun _ => Lexer.spelled_of_mem_tokens) fresh⟩

/-- What a clean source is read as. -/
theorem Clean.statements {fresh : NodeId} (h : Clean fresh source) :
    Stmts.Numbered fresh (read fresh source).statements (read fresh source).fresh ∧
      Stmts.WellFormed (read fresh source).statements := statements_read h.1

/-- A source may be read with other numbers. -/
theorem read_move (i : NodeId) (source : String) (k : Nat) :
    read (i + k) source =
      ⟨Stmts.relabel (.move 0 k) (read i source).statements, (read i source).faults,
        (read i source).fresh + k⟩ := by
  simp only [read, parse_move i k]

/-- Numbers are taken one after the other. -/
theorem le_fresh_read (fresh : NodeId) (source : String) : fresh ≤ (read fresh source).fresh :=
  (spread_parse fresh _).le

/-- Only the machine matters, and which numbers are taken. -/
theorem Sound.withLog (h : s.Sound ps τ) (log : Log) : Sound { s with log := log } ps τ :=
  ⟨h.ranged, h.inv, h.chain, h.unrecorded, h.resolved⟩

/-- More numbers are taken, and for some of them distances are recorded. -/
theorem Sound.skip (h : s.Sound ps τ) {fresh : NodeId} (bs : List Binding) (hle : s.fresh ≤ fresh)
    (hbs : ∀ b ∈ bs, s.fresh ≤ b.id ∧ b.id < fresh) (log : Log) :
    Sound ⟨s.machine.noteAll bs, log, fresh⟩ ps τ where
  ranged := ⟨Nat.zero_le _, fun v hv =>
    ⟨Nat.zero_le _, Nat.lt_of_lt_of_le (h.ranged.bounds v hv).2 hle⟩, h.ranged.consistent⟩
  inv := by
    refine h.inv.extend (fun _ hv => hv) h.inv.allowed h.inv.within fun v hv => ?_
    rw [← h.inv.recorded v hv]
    refine Locals.getElem?_noteAll_of_ne fun b hb => ?_
    exact Nat.ne_of_gt (Nat.lt_of_lt_of_le (h.ranged.bounds v hv).2 (hbs b hb).1)
  chain := h.chain
  unrecorded id hid := by
    rw [← h.unrecorded id (Nat.le_trans hle hid)]
    exact Locals.getElem?_noteAll_of_ne fun b hb => Nat.ne_of_lt (Nat.lt_of_lt_of_le (hbs b hb).2 hid)
  resolved := h.resolved

/-- The numbers of the nodes that a source binds are its own. -/
theorem bounds_read (fresh : NodeId) (source : String) :
    ∀ b ∈ (resolve (read fresh source).statements).bindings,
      fresh ≤ b.id ∧ b.id < (read fresh source).fresh := by
  have hspread := spread_parse fresh (Lexer.tokensOf (Lexer.scan source))
  have hprogram := List.mem_singleton_self (Part.program (read fresh source).statements)
  exact fun b hb => hspread.bounds _ hprogram b.id
    ((hspread.unambiguous _ hprogram).settles_resolve.1 b hb)

/-- A source that does not run does no harm. -/
theorem Sound.reject (h : s.Sound ps τ) (source : String) : (s.rejected source).Sound ps τ := by
  have hle := le_fresh_read s.fresh source
  unfold rejected
  by_cases hlooked : s.Looked source
  · rw [if_pos hlooked]
    exact h.skip _ hle (bounds_read s.fresh source) _
  · rw [if_neg hlooked]
    exact h.skip [] hle nofun _

/-- The names of a program that nothing is wrong with are bound before it runs. -/
theorem Sound.bind (h : s.Sound ps τ) {program : List Stmt} {fresh : NodeId}
    (hnumbered : Stmts.Numbered s.fresh program fresh) (hwf : Stmts.WellFormed program)
    (hsilent : (resolve program).faults = []) (log : Log) :
    Sound ⟨s.machine.noteAll (resolve program).bindings, log, fresh⟩ (ps ++ [program]) τ := by
  obtain ⟨hbindings, hallowed⟩ := resolve_visits hwf hsilent
  have hranged := hnumbered.ranged .outside []
  have hvisits : visits (ps ++ [program]) = visits ps ++ Stmts.visits .outside [] program := by
    rw [visits_append]
    simp [visits]
  have hlocals : (s.machine.noteAll (resolve program).bindings).locals =
      s.machine.locals.noteAll ((Stmts.visits .outside [] program).map Visit.binding) := by
    rw [← hbindings]
    rfl
  constructor
  · rw [hvisits]
    exact h.ranged.append hranged
  · rw [hvisits]
    refine h.inv.extend (fun v hv => List.mem_append_left _ hv) ?_ ?_ ?_
    · intro v hv
      exact (List.mem_append.1 hv).elim (h.inv.allowed v) (hallowed v)
    · intro v hv
      exact (List.mem_append.1 hv).elim (h.inv.within v)
        (Stmts.within_visits _ hwf .outside v)
    · intro v hv
      rw [hlocals]
      rcases List.mem_append.1 hv with hv | hv
      · rw [Locals.getElem?_noteAll_of_ne]
        · exact h.inv.recorded v hv
        · intro b hb
          obtain ⟨u, hu, rfl⟩ := List.mem_map.1 hb
          exact Nat.ne_of_gt (Nat.lt_of_lt_of_le (h.ranged.bounds v hv).2 (hranged.bounds u hu).1)
      · exact hranged.getElem?_noteAll h.unrecorded v hv
  · exact h.chain
  · intro id hid
    rw [hlocals, Locals.getElem?_noteAll_of_ne]
    · exact h.unrecorded id (Nat.le_trans hranged.le hid)
    · intro b hb
      obtain ⟨u, hu, rfl⟩ := List.mem_map.1 hb
      exact Nat.ne_of_lt (Nat.lt_of_lt_of_le (hranged.bounds u hu).2 hid)
  · intro p hp
    rcases List.mem_append.1 hp with hp | hp
    · exact h.resolved p hp
    · obtain rfl := List.mem_singleton.1 hp
      exact hbindings

/-- A clean source is bound before it runs. -/
theorem Sound.prepare (h : s.Sound ps τ) (hclean : Clean s.fresh source) (log : Log) :
    Sound ⟨s.prepared source, log, (read s.fresh source).fresh⟩
      (ps ++ [(read s.fresh source).statements]) τ :=
  h.bind hclean.statements.1 hclean.statements.2 hclean.2 log

/-- The last program whose names were bound runs safely. -/
theorem Sound.safe_last {program : List Stmt} (h : s.Sound (ps ++ [program]) τ)
    (hwf : Stmts.WellFormed program) (fuel : Nat) :
    Safe (visits (ps ++ [program])) τ s.machine (interpret fuel program)
      (interpretTrace .frames fuel program s.machine) fun _ _ _ => True := by
  refine Lox.safe_interpret _ hwf (fun v hv => ?_) ⟨h.inv, ?_, .nowhere⟩
  · rw [visits_append]
    exact List.mem_append_right _ (by simpa [visits] using hv)
  · rw [h.chain]
    exact .outermost h.inv.size

/-- A clean source runs safely on the machine that is prepared for it. -/
theorem Sound.safe_interpret (h : s.Sound ps τ) (hclean : Clean s.fresh source) (fuel : Nat) :
    Safe (visits (ps ++ [(read s.fresh source).statements])) τ (s.prepared source)
      (interpret fuel (read s.fresh source).statements)
      (interpretTrace .frames fuel (read s.fresh source).statements (s.prepared source))
      fun _ _ _ => True :=
  (h.prepare hclean s.log).safe_last hclean.statements.2 fuel

theorem Sound.moves {m : Machine} {log : Log} {τ' : List Event} (h : s.Sound ps τ)
    (hmoves : Moves (visits ps) τ τ' s.machine m) : Sound ⟨m, log, s.fresh⟩ ps τ' where
  ranged := h.ranged
  inv := hmoves.inv
  chain := hmoves.chain.trans h.chain
  unrecorded id hid := by
    rw [hmoves.locals]
    exact h.unrecorded id hid
  resolved := h.resolved

/-- Running a source leaves a session on which programs run safely. -/
theorem Sound.step (h : s.Sound ps τ) (step : Step) :
    (step.apply s).Sound (ps ++ (step.program? s).toList) (τ ++ step.events s) := by
  cases step with
  | run fuel source =>
    by_cases hruns : s.Runs source
    · have hprepared := h.prepare hruns.2 s.log
      have hsafe := h.safe_interpret hruns.2 fuel
      simp only [Step.apply, Step.program?, Step.events, runEvents, if_pos hruns,
        Option.toList_some]
      rw [run_of_clean hruns.1 hruns.2]
      unfold Safe at hsafe
      unfold execute
      cases hrun : interpret fuel (read s.fresh source).statements (s.prepared source) with
      | ok a m =>
        rw [hrun] at hsafe
        exact hprepared.moves hsafe.1
      | error halt m =>
        rw [hrun] at hsafe
        cases halt with
        | fault line f => exact hprepared.moves hsafe.1
        | output f => exact hprepared.moves hsafe.1
        | outOfFuel => exact hprepared.moves hsafe.1
    · simp only [Step.apply, Step.program?, Step.events, runEvents, if_neg hruns,
        run_of_not_clean fuel hruns, Option.toList_none, List.append_nil]
      exact h.reject source
  | parse source =>
    simp only [Step.apply, Step.program?, Step.events, Option.toList_none, List.append_nil]
    exact h.skip [] (le_fresh_read s.fresh source) nofun _
  | reset =>
    simp only [Step.apply, Step.program?, Step.events, Option.toList_none, List.append_nil]
    exact h.withLog _
  | takeDiagnostics =>
    simp only [Step.apply, Step.program?, Step.events, Option.toList_none, List.append_nil]
    exact h.withLog _

/-- Whatever is done with a session, programs with bound names run safely on it. -/
theorem Sound.after (h : s.Sound ps τ) (steps : List Step) :
    (s.after steps).Sound (ps ++ s.programs steps) (τ ++ s.events steps) := by
  induction steps generalizing s ps τ with
  | nil =>
    rw [programs, events, List.append_nil, List.append_nil]
    exact h
  | cons step steps ih =>
    have hrest := ih (h.step step)
    rw [List.append_assoc, List.append_assoc] at hrest
    exact hrest

theorem sound_after (sink : Sink) (clock : Clock) (steps : List Step) :
    ((initial sink clock).after steps).Sound ((initial sink clock).programs steps)
      ((initial sink clock).events steps) :=
  (sound_initial sink clock).after steps

end Session

end Lox
