import Lox.Proofs.Machine.Returns
import Lox.Proofs.Session.History

/-!
# Where returns end up

A statement that returns ends the statements around it, up to the function that is being called: the
innermost call takes the value. If the names of a program were bound without a report, then no
statement of its top level returns, and a return that reaches the call of an initializer has no
value. The machine may have run other programs before, if their names were bound without a report
too.
-/

namespace Lox

open Exec

/-! ## Machines that programs run on -/

/-- A machine that has run nothing but programs whose names were bound without a report, whatever
distances were recorded for their nodes. -/
inductive Machine.Reachable : Machine → Prop
  | initial (sink : Sink) (clock : Clock) : Reachable (.initial sink clock)
  | record {m : Machine} (h : Reachable m) (locals : Locals) : Reachable { m with locals := locals }
  | run {m : Machine} (h : Reachable m) (fuel : Nat) {program : List Stmt}
      (hprogram : (resolve program).faults = []) : Reachable ((interpret fuel program).after m)
  | evaluate {m : Machine} (h : Reachable m) (fuel : Nat) (e : Expr) :
      Reachable ((Lox.evaluate fuel e).after m)

theorem Machine.Reachable.lawful {m : Machine} (h : m.Reachable) : m.Lawful := by
  induction h with
  | initial sink clock => exact ⟨fun f => ⟨.function, trivial, nofun⟩, nofun⟩
  | record _ _ ih => exact ih
  | run _ fuel hprogram ih => exact keeps_lawful_interpret fuel (returnsIn_of_resolve hprogram) _ ih
  | evaluate _ fuel e ih => exact (keeps_lawful fuel).1 e _ ih

namespace Session

theorem machine_execute (fuel : Nat) (s : Session) (program : List Stmt) :
    (execute fuel s program).2.machine = (interpret fuel program).after s.machine := by
  unfold execute Exec.after
  cases interpret fuel program s.machine with
  | ok a m => rfl
  | error halt m => cases halt <;> rfl

end Session

/-! ## Runs that return -/

theorem Exec.map_eq_ok_iff {α β : Type} {p : Exec α} {f : α → β} {b : β} {m m' : Machine} :
    (f <$> p) m = .ok b m' ↔ ∃ a, p m = .ok a m' ∧ f a = b := by
  simp only [Functor.map, EStateM.map]
  cases p m with
  | ok a m₁ =>
    constructor
    · intro h
      cases h
      exact ⟨a, rfl, rfl⟩
    · rintro ⟨a, h, rfl⟩
      cases h
      rfl
  | error halt m₁ => simp

/-- The value that a call makes of how the body of a function ends. -/
def Completion.value : Completion → Value
  | .normal => .nil
  | .returned v => v

/-- The returns of the code that a task runs are allowed. -/
def Task.Lawful : Task → Prop
  | .execute s => ∃ role, s.ReturnsIn role
  | .executeAll ss | .block _ ss => ∃ role, Stmts.ReturnsIn role ss
  | .invoke (.closure c) _ | .closure c _ => c.Lawful
  | .program ss => Stmts.ReturnsIn .topLevel ss
  | _ => True

namespace Run

variable {fuel : Nat} {s : Stmt} {ss : List Stmt} {v : Value} {m : Machine} {r r' : Run}

/-- A run ends with a return of a value. -/
def Returns (r : Run) (v : Value) : Prop := ∃ m, r.result = .ok (.completion (.returned v)) m

/-- Whether the run is the call of a function that a program declares. -/
def isClosure (r : Run) : Bool :=
  match r.task with
  | .closure _ _ => true
  | _ => false

/-- Whether statements are executed. -/
def isStatement (r : Run) : Bool :=
  match r.task with
  | .execute _ | .executeAll _ | .block _ _ => true
  | _ => false

/-- Only statements return. -/
theorem isStatement_of_returns (h : r.Returns v) : r.isStatement = true := by
  obtain ⟨fuel, task, m⟩ := r
  obtain ⟨m', h⟩ := h
  cases task with
  | execute | executeAll | block => rfl
  | _ =>
    obtain ⟨a, -, ha⟩ := Exec.map_eq_ok_iff.1 h
    cases ha

theorem isClosure_of_returns (h : r.Returns v) : r.isClosure = false := by
  have hstatement := isStatement_of_returns h
  obtain ⟨fuel, task, m⟩ := r
  cases task with
  | closure => cases hstatement
  | _ => rfl

theorem returns_execute_iff :
    Returns ⟨fuel, .execute s, m⟩ v ↔ ∃ m', execute fuel s m = .ok (.returned v) m' :=
  exists_congr fun m' => Exec.map_eq_ok_iff.trans (by simp)

theorem returns_executeAll_iff :
    Returns ⟨fuel, .executeAll ss, m⟩ v ↔
      ∃ m', executeAll (execute fuel) ss m = .ok (.returned v) m' :=
  exists_congr fun m' => Exec.map_eq_ok_iff.trans (by simp)

theorem returns_block_iff {chain : Chain} :
    Returns ⟨fuel, .block chain ss, m⟩ v ↔
      Returns ⟨fuel, .executeAll ss, { m with chain := chain }⟩ v := by
  rw [returns_executeAll_iff]
  refine ⟨fun ⟨m', h⟩ => ?_, fun ⟨m', h⟩ => ?_⟩
  · obtain ⟨a, h, ha⟩ := Exec.map_eq_ok_iff.1 h
    cases ha
    simp only [inChain] at h
    split at h
    · cases h
      exact ⟨_, ‹_›⟩
    · cases h
  · refine ⟨{ m' with chain := m.chain }, Exec.map_eq_ok_iff.2 ⟨_, ?_, rfl⟩⟩
    simp only [inChain, h]

/-- A run that begins one that returns also returns, unless it is a call or a program. -/
theorem returns_of_begins (h : r.Begins r') (hr' : r'.Returns v) :
    r.Returns v ∨ r.isClosure = true ∨ ∃ ss, r.task = .program ss := by
  have hstatement := isStatement_of_returns hr'
  cases h with
  | first | binaryRight | logicalRight | thenValue | elseValue | fieldValue | arguments | call
  | argument | laterArguments | expression | invoke | closure | initializer => cases hstatement
  | thenOnly h hv =>
    obtain ⟨m'', hrun⟩ := returns_execute_iff.1 hr'
    refine .inl (returns_execute_iff.2 ⟨m'', ?_⟩)
    exact (Exec.bind_of_ok h).trans (by rw [if_pos hv, hrun])
  | thenBranch h hv =>
    obtain ⟨m'', hrun⟩ := returns_execute_iff.1 hr'
    refine .inl (returns_execute_iff.2 ⟨m'', ?_⟩)
    exact (Exec.bind_of_ok h).trans (by rw [if_pos hv, hrun])
  | elseBranch h hv =>
    obtain ⟨m'', hrun⟩ := returns_execute_iff.1 hr'
    refine .inl (returns_execute_iff.2 ⟨m'', ?_⟩)
    exact (Exec.bind_of_ok h).trans (by rw [hv, if_neg Bool.false_ne_true, hrun])
  | round h hv =>
    obtain ⟨m'', hrun⟩ := returns_execute_iff.1 hr'
    refine .inl (returns_execute_iff.2 ⟨m'', ?_⟩)
    refine (Exec.bind_of_ok h).trans ?_
    rw [if_pos hv]
    exact Exec.bind_of_ok hrun
  | laterRounds h hv hbody =>
    obtain ⟨m'', hrun⟩ := returns_execute_iff.1 hr'
    refine .inl (returns_execute_iff.2 ⟨m'', ?_⟩)
    refine (Exec.bind_of_ok h).trans ?_
    rw [if_pos hv]
    exact (Exec.bind_of_ok hbody).trans hrun
  | block =>
    obtain ⟨m'', hrun⟩ := hr'
    exact .inl ⟨m'', hrun⟩
  | body => exact .inl (returns_block_iff.2 hr')
  | statement =>
    obtain ⟨m'', hrun⟩ := returns_execute_iff.1 hr'
    exact .inl (returns_executeAll_iff.2 ⟨m'', Exec.bind_of_ok hrun⟩)
  | laterStatements h =>
    obtain ⟨m'', hrun⟩ := returns_executeAll_iff.1 hr'
    exact .inl (returns_executeAll_iff.2 ⟨m'', (Exec.bind_of_ok h).trans hrun⟩)
  | closureBody => exact .inr (.inl rfl)
  | topLevel | laterProgram => exact .inr (.inr ⟨_, rfl⟩)

/-! ## What calls make of returns -/

section

variable {c : Closure} {vs : List Value} {body : Run} {completion : Completion} {m' : Machine}

theorem runClosure_of_body (h : Begins ⟨fuel, .closure c vs, m⟩ body)
    (hbody : body.result = .ok (.completion completion) m') :
    executeInFrame (execute fuel) (callFrame c.decl.params vs) c.chain c.decl.body m =
      .ok completion m' := by
  cases h with
  | closureBody =>
    obtain ⟨a, hrun, ha⟩ := Exec.map_eq_ok_iff.1 hbody
    cases ha
    exact hrun

/-- A function gives the value that it returns, and nil if its body reaches its end. -/
theorem result_closure (h : Begins ⟨fuel, .closure c vs, m⟩ body)
    (hbody : body.result = .ok (.completion completion) m') (hc : c.isInitializer = false) :
    result ⟨fuel, .closure c vs, m⟩ = .ok (.value completion.value) m' := by
  refine Exec.map_eq_ok_iff.2 ⟨completion.value, ?_, rfl⟩
  refine (Exec.bind_of_ok (runClosure_of_body h hbody)).trans ?_
  rw [hc, if_neg Bool.false_ne_true]
  cases completion <;> rfl

/-- An initializer gives its receiver. -/
theorem result_initializer (h : Begins ⟨fuel, .closure c vs, m⟩ body)
    (hbody : body.result = .ok (.completion completion) m') (hc : c.isInitializer = true)
    {receiver : Value} (hthis : m'.heap.frames.getAt c.chain 0 "this" = .ok receiver) :
    result ⟨fuel, .closure c vs, m⟩ = .ok (.value receiver) m' := by
  refine Exec.map_eq_ok_iff.2 ⟨receiver, ?_, rfl⟩
  refine (Exec.bind_of_ok (runClosure_of_body h hbody)).trans ?_
  rw [if_pos hc]
  refine (Exec.bind_of_ok (p := get) rfl).trans ?_
  rw [hthis]
  rfl

/-- A return that reaches the call of an initializer has no value. -/
theorem eq_nil_of_returns (h : Begins ⟨fuel, .closure c vs, m⟩ body) (hlawful : c.Lawful)
    (hbody : body.Returns v) (hc : c.isInitializer = true) : v = .nil := by
  obtain ⟨role, hdecl, hrole⟩ := hlawful
  obtain ⟨m', hbody⟩ := hbody
  have hallowed := gives_executeAll fun s hs =>
    gives_execute fuel (Stmts.returnsIn_iff.1 (FunctionDecl.returnsIn_iff.1 hdecl) s hs)
  have hrun := runClosure_of_body h hbody
  exact (hallowed.inChain _ _ _ _ hrun).2 (hrole hc)

end

/-! ## Runs of lawful code -/

/-- The returns of all code that a run may come to are allowed. -/
def Lawful (r : Run) : Prop := r.machine.Lawful ∧ r.task.Lawful

/-- The code that a run comes to is code of its own or of a lawful function. -/
theorem lawful_of_begins (h : r.Begins r') (hr : r.Lawful) : r'.Lawful := by
  obtain ⟨hm, htask⟩ := hr
  have heval {fuel e v m m'} (hm : Machine.Lawful m) (h : evaluate fuel e m = .ok v m') :
      m'.Lawful := ((keeps_lawful fuel).1 e).of_ok hm h
  have hexec {fuel role s c m m'} (hs : Stmt.ReturnsIn role s) (hm : Machine.Lawful m)
      (h : execute fuel s m = .ok c m') : m'.Lawful := ((keeps_lawful fuel).2 role s hs).of_ok hm h
  cases h with
  | first | argument | expression => exact ⟨hm, trivial⟩
  | binaryRight h | logicalRight h | thenValue h | elseValue h | fieldValue h | arguments h
  | laterArguments h => exact ⟨heval hm h, trivial⟩
  | @call fuel _ _ es _ _ _ _ _ h hvs =>
    have hes : ∀ e ∈ es, Exec.Keeps Machine.Lawful (evaluate fuel e) :=
      fun e _ => (keeps_lawful fuel).1 e
    have hall := Machine.Stable.keeps_evaluateAll hes
    exact ⟨hall.of_ok (heval hm h) hvs, trivial⟩
  | thenOnly h | round h => exact ⟨heval hm h, htask⟩
  | thenBranch h => exact ⟨heval hm h, htask.imp fun _ hs => hs.1⟩
  | elseBranch h => exact ⟨heval hm h, htask.imp fun _ hs => hs.2⟩
  | @laterRounds _ _ body _ _ _ _ h _ hrun =>
    obtain ⟨role, hs⟩ := htask
    have hbody : body.ReturnsIn role := hs
    exact ⟨hexec hbody (heval hm h) hrun, role, hs⟩
  | block => exact ⟨Machine.stable_lawful.keeps_newFrame ∅ _ hm, htask⟩
  | body => exact ⟨hm, htask⟩
  | statement => exact ⟨hm, htask.imp fun _ hs => hs.1⟩
  | laterStatements h =>
    obtain ⟨role, hs⟩ := htask
    exact ⟨hexec hs.1 hm h, role, hs.2⟩
  | @invoke _ callee _ _ f m hf =>
    refine ⟨hm, ?_⟩
    cases callee with
    | function id =>
      cases hf
      exact hm.functions id
    | native | class_ =>
      cases hf
      trivial
    | _ => cases hf
  | closure => exact ⟨hm, htask⟩
  | @initializer _ c _ _ _ _ m _ _ hi hinit hbound =>
    cases hi
    cases hbound
    have hmade := Machine.stable_lawful.keeps_newInstance c m hm
    exact ⟨Machine.stable_lawful.keeps_newFrame _ _ hmade, (hmade.findMethod? hinit).withChain _⟩
  | @closureBody _ c =>
    obtain ⟨role, hdecl, -⟩ := htask
    exact ⟨Machine.stable_lawful.keeps_newFrame _ _ hm, role, FunctionDecl.returnsIn_iff.1 hdecl⟩
  | topLevel => exact ⟨hm, .topLevel, htask.1⟩
  | laterProgram h => exact ⟨hexec htask.1 hm h, htask.2⟩

theorem lawful_of_active {start : Run} {outer : List Run} (h : start.Active (r :: outer))
    (hstart : start.Lawful) : r.Lawful := by
  induction h using Active.stack_induction with
  | start =>
    exact hstart
  | begin h hbegins ih =>
    exact lawful_of_begins hbegins ih

/-- No statement of the top level returns. -/
theorem not_returns_topLevel (hs : s.ReturnsIn .topLevel) : ¬ Returns ⟨fuel, .execute s, m⟩ v := by
  intro h
  obtain ⟨m', hrun⟩ := returns_execute_iff.1 h
  exact (gives_execute fuel hs m _ m' hrun).1 rfl

/-- Each return ends the statements around it up to the innermost call, and there is one. -/
theorem exists_call_of_returns {start : Run} {program : List Stmt} {outer : List Run}
    (hprogram : start.task = .program program) (hstart : start.Lawful)
    (h : start.Active (r :: outer)) (hr : r.Returns v) :
    ∃ passed call rest body, r :: outer = passed ++ call :: rest ∧
      (∀ q ∈ passed, q.isClosure = false ∧ q.Returns v) ∧
        call.isClosure = true ∧ call.Begins body ∧ body.Returns v := by
  induction h using Active.stack_induction with
  | start =>
    have hstatement := isStatement_of_returns hr
    rw [isStatement, hprogram] at hstatement
    cases hstatement
  | @begin q q' outer' h hbegins ih =>
    have hself : q'.isClosure = false ∧ q'.Returns v := ⟨isClosure_of_returns hr, hr⟩
    rcases returns_of_begins hbegins hr with hq | hq | ⟨ss, hq⟩
    · obtain ⟨passed, call, rest, body, hsplit, hpassed, hcall⟩ := ih hq
      refine ⟨q' :: passed, call, rest, body, congrArg (q' :: ·) hsplit, ?_, hcall⟩
      exact List.forall_mem_cons.2 ⟨hself, hpassed⟩
    · exact ⟨[q'], q, outer', q', rfl, List.forall_mem_singleton.2 hself, hq, hbegins, hr⟩
    · have hlawful := lawful_of_active h hstart
      obtain ⟨fuel, task, m⟩ := q
      obtain rfl : task = .program ss := hq
      cases hbegins with
      | topLevel => exact absurd hr (not_returns_topLevel hlawful.2.1)
      | laterProgram => cases isStatement_of_returns hr

/-- At each moment of the run of a program whose names were bound without a report, if the innermost
run returns, then all runs around it up to the innermost call return the same value. The call gives
this value unless it is that of an initializer, to which no value is returned and which gives its
receiver. No statement of the top level returns, and a call gives nil if the body of the function
reaches its end. -/
theorem consumed_of_active {program : List Stmt} {m : Machine} {fuel : Nat} {r : Run}
    {outer : List Run} (hprogram : (resolve program).faults = []) (hm : m.Reachable)
    (h : Active ⟨fuel, .program program, m⟩ (r :: outer)) :
    (∀ v, r.Returns v → ∃ passed call rest c vs m', r :: outer = passed ++ call :: rest ∧
      (∀ q ∈ passed, q.isClosure = false ∧ q.Returns v) ∧ call.task = .closure c vs ∧
        (c.isInitializer = false → call.result = .ok (.value v) m') ∧
        (c.isInitializer = true → v = .nil ∧ ∀ receiver,
          m'.heap.frames.getAt c.chain 0 "this" = .ok receiver →
            call.result = .ok (.value receiver) m')) ∧
    (∀ s ss v, r.task = .program (s :: ss) → ¬ Returns ⟨r.fuel, .execute s, r.machine⟩ v) ∧
    ∀ c vs body m', r.task = .closure c vs → c.isInitializer = false → r.Begins body →
      body.result = .ok (.completion .normal) m' → r.result = .ok (.value .nil) m' := by
  have hstart : Lawful ⟨fuel, .program program, m⟩ := ⟨hm.lawful, returnsIn_of_resolve hprogram⟩
  have hr := lawful_of_active h hstart
  refine ⟨fun v hv => ?_, ?_, ?_⟩
  · obtain ⟨passed, call, rest, body, hsplit, hpassed, hcall, hbegins, m', hbody⟩ :=
      exists_call_of_returns rfl hstart h hv
    have hlawful := lawful_of_active (hsplit ▸ h).of_append hstart
    obtain ⟨fuel', task, m₁⟩ := call
    cases task with
    | closure c vs =>
      exact ⟨passed, _, rest, c, vs, m', hsplit, hpassed, rfl, result_closure hbegins hbody,
        fun hc => ⟨eq_nil_of_returns hbegins hlawful.2 ⟨m', hbody⟩ hc,
          fun _ => result_initializer hbegins hbody hc⟩⟩
    | _ => cases hcall
  · obtain ⟨fuel', task, m'⟩ := r
    rintro s ss v rfl
    exact not_returns_topLevel hr.2.1
  · obtain ⟨fuel', task, m₁⟩ := r
    rintro c vs body m' rfl hc hbegins hbody
    exact result_closure hbegins hbody hc

/-- A function of an earlier program, which returns from inside a loop. -/
theorem consumed_of_active_loop :
    let f : Token := ⟨.symbol .identifier, "f", 1⟩
    let always : Expr := .literal (.bool true)
    let declared : List Stmt :=
      [.funDecl ⟨f, [], [.whileLoop always (.block [.returnWith f (some always)])]⟩]
    let start : Run := ⟨7, .program [.expression (.call (.var 0 f) f [])],
      (interpret 1 declared).after (.initial {} {})⟩
    ∃ r outer, start.Active (r :: outer) ∧ outer.length = 12 ∧ r.Returns (.bool true) ∧
      ∃ passed call rest m', r :: outer = passed ++ call :: rest ∧
        (∀ q ∈ passed, q.Returns (.bool true)) ∧ call.isClosure = true ∧
          call.result = .ok (.value (.bool true)) m' := by
  intro f always declared start
  have hdeclared : (resolve declared).faults = [] := by decide +kernel
  have hm := (Machine.Reachable.initial {} {}).run 1 hdeclared
  have hcall := (((((Active.start : start.Active [start]).begin .topLevel).begin
    (.expression (List.mem_singleton_self _))).begin (.call rfl rfl)).begin
      (.invoke rfl rfl (by decide))).begin .closure
  have hloop := ((hcall.begin .closureBody).begin .body).begin .statement
  have hreturn := (((hloop.begin (.round rfl rfl)).begin .block).begin .body).begin .statement
  obtain ⟨passed, call, rest, c, vs, m', hsplit, hpassed, htask, hresult, hinit⟩ :=
    (consumed_of_active (by decide +kernel) hm hreturn).1 (.bool true)
      (returns_execute_iff.2 ⟨_, rfl⟩)
  refine ⟨_, _, hreturn, rfl, returns_execute_iff.2 ⟨_, rfl⟩, passed, call, rest, m', hsplit,
    fun q hq => (hpassed q hq).2, ?_, ?_⟩
  · rw [isClosure, htask]
  · cases hc : c.isInitializer with
    | false => exact hresult hc
    | true => cases (hinit hc).1

end Run

end Lox
