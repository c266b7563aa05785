import Lox.Proofs.Machine.Runs

/-!
# The context of running code

Code runs in a context: the chain of frames that it sees, and the number of calls that are active.
However a run ends, it leaves the context in which it started. So at any moment of a run, the number
of calls that the machine counts is the number that it started with and one more for each call that
is active. A call that would exceed the most that are allowed is not made.
-/

namespace Lox

open Exec

variable {α β : Type} {eval : Expr → Exec Value} {exec : Stmt → Exec Completion}

/-- The machine `m'` is back in the context of `m`, and no frame or instance of `m` is gone. -/
structure Machine.Resumes (m m' : Machine) : Prop where
  chain : m'.chain = m.chain
  depth : m'.depth = m.depth
  frames : m.heap.frames.size ≤ m'.heap.frames.size
  instances : m.heap.instances.size ≤ m'.heap.instances.size

theorem Machine.Resumes.refl (m : Machine) : m.Resumes m := ⟨rfl, rfl, Nat.le_refl _, Nat.le_refl _⟩

theorem Machine.stable_resumes (m : Machine) : Machine.Stable m.Resumes where
  frames _ _ hsize h := ⟨h.chain, h.depth, Nat.le_trans h.frames hsize, h.instances⟩
  instances _ _ hsize h := ⟨h.chain, h.depth, h.frames, Nat.le_trans h.instances hsize⟩
  classField _ _ _ _ h := ⟨h.chain, h.depth, h.frames, h.instances⟩
  sink _ _ h := ⟨h.chain, h.depth, h.frames, h.instances⟩
  clock _ _ h := ⟨h.chain, h.depth, h.frames, h.instances⟩
  bound _ _ _ _ _ _ h := ⟨h.chain, h.depth, h.frames, h.instances⟩

namespace Exec

/-- A step leaves the chain and the number of calls as they were, whether or not it halts, and takes
no frame or instance away. -/
def Restores (p : Exec α) : Prop := ∀ m : Machine, m.Resumes (p.after m)

theorem Restores.keeps {p : Exec α} (h : Restores p) (m : Machine) : Keeps m.Resumes p := by
  intro m' hm'
  obtain ⟨hchain, hdepth, hframes, hinstances⟩ := h m'
  exact ⟨hchain.trans hm'.chain, hdepth.trans hm'.depth, Nat.le_trans hm'.frames hframes,
    Nat.le_trans hm'.instances hinstances⟩

theorem restores_of_keeps {p : Exec α} (h : ∀ m : Machine, Keeps m.Resumes p) : Restores p :=
  fun m => h m m (.refl m)

theorem Restores.bind {p : Exec α} {f : α → Exec β} (hp : Restores p) (hf : ∀ a, Restores (f a)) :
    Restores (p >>= f) :=
  restores_of_keeps fun m => (hp.keeps m).bind fun a => (hf a).keeps m

theorem Restores.map {p : Exec α} (hp : Restores p) (f : α → β) : Restores (f <$> p) := fun m => by
  rw [after_map]
  exact hp m

theorem Restores.of_ok {p : Exec α} (hp : Restores p) {a : α} {m m' : Machine}
    (h : p m = .ok a m') : m.Resumes m' :=
  (hp.keeps m).of_ok (.refl m) h

theorem after_inChain (chain : Chain) (p : Exec α) (m : Machine) :
    (inChain chain p).after m = { p.after { m with chain := chain } with chain := m.chain } := by
  simp only [after, inChain]
  cases p { m with chain := chain } <;> rfl

theorem after_nested (p : Exec α) (m : Machine) :
    (nested p).after m =
      { p.after { m with depth := m.depth + 1 } with
        depth := (p.after { m with depth := m.depth + 1 }).depth - 1 } := by
  simp only [after, nested]
  cases p { m with depth := m.depth + 1 } <;> rfl

/-- What does not depend on the chain is kept in any chain. -/
theorem Keeps.inChain {P : Machine → Prop} {p : Exec α} (hp : Keeps P p)
    (hP : ∀ m chain, P m → P { m with chain := chain }) (chain : Chain) :
    Keeps P (inChain chain p) := fun m hm => by
  rw [after_inChain]
  exact hP _ _ (hp _ (hP m chain hm))

theorem Restores.inChain {p : Exec α} (hp : Restores p) (chain : Chain) :
    Restores (inChain chain p) := fun m => by
  obtain ⟨-, hdepth, hframes, hinstances⟩ := hp { m with chain := chain }
  rw [after_inChain]
  exact ⟨rfl, hdepth, hframes, hinstances⟩

theorem Restores.nested {p : Exec α} (hp : Restores p) : Restores (nested p) := fun m => by
  obtain ⟨hchain, hdepth, hframes, hinstances⟩ := hp { m with depth := m.depth + 1 }
  rw [after_nested]
  exact ⟨hchain, by rw [hdepth, Nat.add_sub_cancel], hframes, hinstances⟩

end Exec

/-! ## Sequences and calls -/

theorem restores_evaluateAll (heval : ∀ e, Restores (eval e)) (es : List Expr) :
    Restores (evaluateAll eval es) :=
  restores_of_keeps fun m => Machine.Stable.keeps_evaluateAll fun e _ => (heval e).keeps m

theorem restores_executeAll (hexec : ∀ s, Restores (exec s)) (ss : List Stmt) :
    Restores (executeAll exec ss) :=
  restores_of_keeps fun m => Machine.Stable.keeps_executeAll fun s _ => (hexec s).keeps m

theorem restores_executeInFrame (hexec : ∀ s, Restores (exec s)) (frame : Frame) (chain : Chain)
    (body : List Stmt) : Restores (executeInFrame exec frame chain body) := by
  have hframe : Restores (withHeap fun h => h.newFrame frame) :=
    restores_of_keeps fun m => m.stable_resumes.keeps_newFrame frame
  exact hframe.bind fun id => (restores_executeAll hexec body).inChain (id :: chain)

theorem restores_runClosure (hexec : ∀ s, Restores (exec s)) (c : Closure)
    (arguments : List Value) : Restores (runClosure exec c arguments) :=
  restores_of_keeps fun m => Machine.Stable.keeps_runClosure (fun frame =>
    (restores_executeInFrame hexec frame c.chain c.decl.body).keeps m) arguments

/-- However a call ends, its caller goes on in its own context. -/
theorem restores_invoke (hexec : ∀ s, Restores (exec s)) (arguments : List Value) (f : Callable) :
    Restores (invoke exec arguments f) := by
  refine restores_of_keeps fun m => ?_
  have hstable := m.stable_resumes
  cases f with
  | closure c => exact (restores_runClosure hexec c arguments).keeps m
  | native f =>
    cases f with
    | clock => exact hstable.keeps_readClock
    | printNative => exact (hstable.keeps_writeLine _).bind fun _ => keeps_pure _
  | constructor c =>
    intro m' hm'
    exact hstable.after_construct (fun init chain _ =>
      (restores_runClosure hexec { init with chain := chain } arguments).keeps m)
        (hstable.keeps_newInstance c m' hm')

theorem restores_callValue (hexec : ∀ s, Restores (exec s)) (callee : Value) (paren : Token)
    (arguments : List Value) : Restores (callValue exec callee paren arguments) := by
  refine restores_of_keeps fun m₀ => keeps_get_bind fun m hm => ?_
  cases m.heap.callable? callee with
  | none => exact hm
  | some f =>
    simp only
    split
    · exact hm
    · split
      · exact hm
      · exact (restores_invoke hexec arguments f).nested.keeps m₀ m hm

/-! ## Expressions and statements -/

/-- Expressions and statements leave the context in which they start. By induction on the fuel. -/
theorem restores_evaluate_execute (fuel : Nat) :
    (∀ e, Restores (evaluate fuel e)) ∧ ∀ s, Restores (execute fuel s) := by
  induction fuel with
  | zero => exact ⟨fun _ => Machine.Resumes.refl, fun _ => Machine.Resumes.refl⟩
  | succ fuel ih =>
    obtain ⟨heval, hexec⟩ := ih
    refine ⟨fun e => restores_of_keeps fun m => ?_, fun s => restores_of_keeps fun m => ?_⟩
    · exact keeps_evaluate_succ m.stable_resumes (fun e => (heval e).keeps m)
        (fun f paren vs => (restores_callValue hexec f paren vs).keeps m) e
    · have hadd : ∀ c : Closure, c.Addable m.Resumes :=
        fun _ _ hm => ⟨hm.chain, hm.depth, hm.frames, hm.instances⟩
      refine keeps_execute_succ m.stable_resumes (fun e => (heval e).keeps m)
        (fun a _ => (hexec a).keeps m)
        (fun body chain _ => (restores_executeInFrame hexec ∅ chain body).keeps m)
        (fun _ _ _ => hadd _) fun decl _ => ?_
      exact m.stable_resumes.keeps_declareClass (fun e => (heval e).keeps m)
        (fun _ _ _ => hadd _) fun _ _ _ _ hm => ⟨hm.chain, hm.depth, hm.frames, hm.instances⟩

theorem restores_interpret (fuel : Nat) (ss : List Stmt) : Restores (interpret fuel ss) := by
  induction ss with
  | nil => exact Machine.Resumes.refl
  | cons s ss ih => exact ((restores_evaluate_execute fuel).2 s).bind fun _ => ih

theorem Task.restores_exec (fuel : Nat) (task : Task) : Restores (task.exec fuel) := by
  obtain ⟨heval, hexec⟩ := restores_evaluate_execute fuel
  cases task with
  | evaluate e => exact (heval e).map _
  | evaluateAll es => exact (restores_evaluateAll heval es).map _
  | execute s => exact (hexec s).map _
  | executeAll ss => exact (restores_executeAll hexec ss).map _
  | block chain body => exact ((restores_executeAll hexec body).inChain chain).map _
  | call callee paren arguments => exact (restores_callValue hexec callee paren arguments).map _
  | invoke f arguments => exact (restores_invoke hexec arguments f).map _
  | closure c arguments => exact (restores_runClosure hexec c arguments).map _
  | program ss => exact (restores_interpret fuel ss).map _

/-! ## Runs inside a run -/

namespace Run

/-- Whether the run is what a call does. -/
def isInvocation (r : Run) : Bool :=
  match r.task with
  | .invoke _ _ => true
  | _ => false

/-- A run starts with as many calls as the run that begins it, and what a call does with one
more. -/
theorem depth_of_begins {r r' : Run} (h : r.Begins r') :
    r'.machine.depth = r.machine.depth + if r'.isInvocation then 1 else 0 := by
  have heval {fuel e v m m'} (h : evaluate fuel e m = .ok v m') : m'.depth = m.depth :=
    (((restores_evaluate_execute fuel).1 e).of_ok h).depth
  have hexec {fuel s c m m'} (h : execute fuel s m = .ok c m') : m'.depth = m.depth :=
    (((restores_evaluate_execute fuel).2 s).of_ok h).depth
  cases h with
  | first | argument | expression | block | body | statement | closure | closureBody | topLevel =>
    rfl
  | binaryRight h | logicalRight h | thenValue h | elseValue h | fieldValue h | arguments h
  | laterArguments h | thenOnly h | thenBranch h | elseBranch h | round h => exact heval h
  | @call fuel _ _ es _ _ _ _ _ h hvs =>
    have hall := restores_evaluateAll (restores_evaluate_execute fuel).1 es
    exact (hall.of_ok hvs).depth.trans (heval h)
  | laterRounds h _ hbody => exact (hexec hbody).trans (heval h)
  | laterStatements h | laterProgram h => exact hexec h
  | invoke => rfl
  | initializer => rfl

/-- No run is begun with more calls than may be active. -/
theorem depth_le_of_begins {r r' : Run} (h : r.Begins r') (hr : r.machine.depth ≤ maxCallDepth) :
    r'.machine.depth ≤ maxCallDepth := by
  have hdepth := depth_of_begins h
  cases h with
  | invoke hf hvs hlt => exact hlt
  | _ => exact hdepth ▸ hr

section

variable {start r : Run} {outer : List Run}

/-- The number of calls is the one at the start and one more for each call that is active. -/
theorem depth_of_active (h : start.Active (r :: outer)) :
    r.machine.depth =
      start.machine.depth + (r :: outer).dropLast.countP isInvocation := by
  induction h using Active.stack_induction with
  | start =>
    rfl
  | begin h hbegins ih =>
    rw [List.dropLast_cons_cons, List.countP_cons, ← Nat.add_assoc, ← ih]
    exact depth_of_begins hbegins

theorem depth_le_of_active (h : start.Active (r :: outer))
    (hstart : start.machine.depth ≤ maxCallDepth) : r.machine.depth ≤ maxCallDepth := by
  induction h using Active.stack_induction with
  | start =>
    exact hstart
  | begin h hbegins ih =>
    exact depth_le_of_begins hbegins ih

end

section

variable {fuel : Nat} {callee : Value} {paren : Token} {vs : List Value} {m : Machine}
  {f : Callable}

/-- A call that is allowed but for the number of calls is made if and only if there may be one
more. -/
theorem exists_begins_call_iff (fuel : Nat) (paren : Token) (hf : m.heap.callable? callee = some f)
    (hvs : vs.length = m.heap.arity f) :
    (∃ r, Begins ⟨fuel, .call callee paren vs, m⟩ r) ↔ m.depth < maxCallDepth := by
  constructor
  · rintro ⟨r, h⟩
    cases h with
    | invoke _ _ hdepth => exact hdepth
  · exact fun hdepth => ⟨_, .invoke hf hvs hdepth⟩

/-- A call that is allowed does what it calls, one call deeper. -/
theorem callValue_of_lt (exec : Stmt → Exec Completion) (paren : Token)
    (hf : m.heap.callable? callee = some f) (hvs : vs.length = m.heap.arity f)
    (hdepth : m.depth < maxCallDepth) :
    callValue exec callee paren vs m = Exec.nested (Lox.invoke exec vs f) m := by
  rw [callValue, get_bind_apply]
  simp only [hf]
  rw [if_neg (fun hne => hne hvs), if_neg (Nat.not_le.2 hdepth)]

/-- A call that is allowed has the result of what it calls, with the number of calls taken back. -/
theorem result_call (paren : Token) (hf : m.heap.callable? callee = some f)
    (hvs : vs.length = m.heap.arity f) (hdepth : m.depth < maxCallDepth) :
    result ⟨fuel, .call callee paren vs, m⟩ = Exec.nested ((Task.invoke f vs).exec fuel) m := by
  have hcall := callValue_of_lt (Lox.execute fuel) paren hf hvs hdepth
  simp only [result, Task.exec, Functor.map, EStateM.map, hcall, Exec.nested]
  cases Lox.invoke (Lox.execute fuel) vs f { m with depth := m.depth + 1 } <;> rfl

/-- A call that would be one too many does nothing. -/
theorem callValue_of_le (exec : Stmt → Exec Completion) (paren : Token)
    (hf : m.heap.callable? callee = some f) (hvs : vs.length = m.heap.arity f)
    (hdepth : maxCallDepth ≤ m.depth) :
    callValue exec callee paren vs m = .error (.fault paren.line .stackOverflow) m := by
  rw [callValue, get_bind_apply]
  simp only [hf]
  rw [if_neg (fun hne => hne hvs), if_pos hdepth]
  rfl

/-- What is called and ends with a fault has left something behind: a function the frame of its
body, and a class an instance. Native functions have no faults. -/
theorem heap_ne_of_invoke_fault {line : Nat} {fault : RuntimeFault} {m' : Machine}
    (h : Lox.invoke (Lox.execute fuel) vs f m = .error (.fault line fault) m') :
    m'.heap ≠ m.heap := by
  have hexec := (restores_evaluate_execute fuel).2
  have hafter : Exec.after (Lox.invoke (Lox.execute fuel) vs f) m = m' := by rw [Exec.after, h]
  intro hheap
  cases f with
  | closure c =>
    let m₁ : Machine := { m with heap := (m.heap.newFrame (callFrame c.decl.params vs)).2 }
    have hbody (id : FrameId) :=
      ((restores_executeAll hexec c.decl.body).inChain (id :: c.chain)).keeps m₁
    have hresumes : m₁.Resumes (Exec.after (runClosure (Lox.execute fuel) c vs) m) :=
      Machine.Stable.after_runClosure (Keeps.after_bind hbody (.refl m₁))
    have hframes : m₁.heap.frames.size ≤ m'.heap.frames.size := (hafter ▸ hresumes).frames
    have hsize : m₁.heap.frames.size = m.heap.frames.size + 1 := Frames.size_push _ _
    rw [hheap] at hframes
    omega
  | native f =>
    cases f with
    | clock => cases h
    | printNative =>
      simp only [Lox.invoke, Bind.bind, EStateM.bind, writeLine] at h
      cases hline : m.sink.writeLine (m.heap.text (vs.headD .nil)) with
      | mk refused sink =>
        rw [hline] at h
        cases refused <;> cases h
  | constructor c =>
    let m₁ : Machine := { m with heap := (m.heap.newInstance c).2 }
    have hresumes : m₁.Resumes (Exec.after (construct (Lox.execute fuel) c vs) m) :=
      m₁.stable_resumes.after_construct
        (fun init chain _ => (restores_runClosure hexec { init with chain := chain } vs).keeps m₁)
        (.refl m₁)
    have hinstances : m₁.heap.instances.size ≤ m'.heap.instances.size :=
      (hafter ▸ hresumes).instances
    have hsize : m₁.heap.instances.size = m.heap.instances.size + 1 := Array.size_push _
    rw [hheap] at hinstances
    omega

end

/-- A run that begins one which halts does so too. It leaves the machine that this one leaves, but in
its own context. -/
theorem result_of_begins {r r' : Run} {halt : Halt} {m' : Machine} (h : r.Begins r')
    (hr' : r'.result = .error halt m') :
    r.result = .error halt { m' with chain := r.machine.chain, depth := r.machine.depth } := by
  suffices hr : ∃ chain depth, r.result = .error halt { m' with chain := chain, depth := depth } by
    obtain ⟨chain, depth, hr⟩ := hr
    have hrestores := r.task.restores_exec r.fuel r.machine
    rw [Exec.after, show r.task.exec r.fuel r.machine = _ from hr] at hrestores
    obtain ⟨rfl, rfl, -, -⟩ := hrestores
    exact hr
  have halts {α : Type} {f : α → Answer} {p : Exec α} {m : Machine} (h : p m = .error halt m') :
      ∃ chain depth, (f <$> p) m = .error halt { m' with chain := chain, depth := depth } :=
    ⟨m'.chain, m'.depth, map_eq_error_iff.2 h⟩
  cases h with
  | @first _ e _ _ h =>
    have he := map_eq_error_iff.1 hr'
    refine halts ?_
    cases e with
    | grouping =>
      cases h
      exact he
    | unary | binary | logical | conditional | assign | call | get | set =>
      cases h
      exact bind_of_error he
    | _ => cases h
  | binaryRight h | arguments h | laterArguments h =>
    exact halts ((bind_of_ok h).trans (bind_of_error (map_eq_error_iff.1 hr')))
  | logicalRight h hs | thenValue h hs | elseValue h hs | thenOnly h hs | thenBranch h hs
  | elseBranch h hs =>
    refine halts ((bind_of_ok h).trans ?_)
    simp only [hs]
    exact map_eq_error_iff.1 hr'
  | @fieldValue _ _ _ _ v _ _ h hv =>
    refine halts ((bind_of_ok h).trans ?_)
    cases v with
    | instance_ | class_ => exact bind_of_error (map_eq_error_iff.1 hr')
    | _ => cases hv
  | call h hvs =>
    exact halts ((bind_of_ok h).trans ((bind_of_ok hvs).trans (map_eq_error_iff.1 hr')))
  | argument | statement | closureBody | topLevel =>
    exact halts (bind_of_error (map_eq_error_iff.1 hr'))
  | @expression _ s e _ h =>
    have he := map_eq_error_iff.1 hr'
    refine halts ?_
    cases s with
    | expression | print | ifThen | ifElse | whileLoop =>
      cases List.mem_singleton.1 h
      exact bind_of_error he
    | varDecl _ o | returnWith _ o =>
      cases o with
      | none => cases h
      | some =>
        cases List.mem_singleton.1 h
        exact bind_of_error he
    | classDecl decl =>
      obtain ⟨name, superclass, methods, statics⟩ := decl
      cases superclass with
      | none => cases h
      | some =>
        cases List.mem_singleton.1 h
        exact bind_of_error (bind_of_error (bind_of_error he))
    | _ => cases h
  | round h hv =>
    refine halts ((bind_of_ok h).trans ?_)
    simp only [hv, if_true]
    exact bind_of_error (map_eq_error_iff.1 hr')
  | laterRounds h hv hbody =>
    refine halts ((bind_of_ok h).trans ?_)
    simp only [hv, if_true]
    exact (bind_of_ok hbody).trans (map_eq_error_iff.1 hr')
  | block | closure => exact halts (map_eq_error_iff.1 hr')
  | @body _ chain _ m =>
    refine ⟨m.chain, m'.depth, map_eq_error_iff.2 ?_⟩
    simp only [inChain, map_eq_error_iff.1 hr']
  | laterStatements h | laterProgram h =>
    exact halts ((bind_of_ok h).trans (map_eq_error_iff.1 hr'))
  | @invoke _ _ paren _ _ _ hf hvs hdepth =>
    refine ⟨m'.chain, m'.depth - 1, (result_call paren hf hvs hdepth).trans ?_⟩
    simp only [nested, show Task.exec _ _ _ = _ from hr']
  | @initializer _ c _ _ _ _ _ _ _ hi hinit hbound =>
    refine halts ?_
    simp only [Lox.invoke, construct, withHeap_bind_apply, get_bind_apply, hi, hinit, hbound]
    exact bind_of_error (map_eq_error_iff.1 hr')

/-- At each moment of a run that starts with no more calls than may be active, the innermost run
will leave the context in which it starts, however it ends. The machine counts the calls that are
active, which are never too many. A call that is allowed but for their number fails at once, with
the machine as it is, if and only if there are as many as there may be. Then it begins no other run,
and otherwise it does what it calls, one call deeper. -/
theorem context_of_active {start r : Run} {outer : List Run}
    (hstart : start.machine.depth ≤ maxCallDepth) (h : start.Active (r :: outer)) :
    (r.after.chain = r.machine.chain ∧ r.after.depth = r.machine.depth) ∧
      r.machine.depth = start.machine.depth + (r :: outer).dropLast.countP isInvocation ∧
      r.machine.depth ≤ maxCallDepth ∧
      ∀ callee paren vs f, r.task = .call callee paren vs →
        r.machine.heap.callable? callee = some f → vs.length = r.machine.heap.arity f →
          ((∃ fault : RuntimeFault, fault.message = "Stack overflow." ∧
              callValue (Lox.execute r.fuel) callee paren vs r.machine =
                .error (.fault paren.line fault) r.machine) ↔ r.machine.depth = maxCallDepth) ∧
            ((∃ r', r.Begins r') ↔ r.machine.depth < maxCallDepth) ∧
            (r.machine.depth < maxCallDepth →
              callValue (Lox.execute r.fuel) callee paren vs r.machine =
                Exec.nested (Lox.invoke (Lox.execute r.fuel) vs f) r.machine) := by
  have hle := depth_le_of_active h hstart
  have hrestores := r.task.restores_exec r.fuel r.machine
  refine ⟨⟨hrestores.chain, hrestores.depth⟩, depth_of_active h, hle, ?_⟩
  obtain ⟨fuel, task, m⟩ := r
  rintro callee paren vs f rfl hf hvs
  refine ⟨⟨?_, fun hdepth => ?_⟩, exists_begins_call_iff fuel paren hf hvs,
    callValue_of_lt _ paren hf hvs⟩
  · rintro ⟨fault, -, hfault⟩
    -- Below the limit the call is made, and a call that is made leaves another heap.
    refine Nat.le_antisymm hle (Nat.not_lt.1 fun hlt => ?_)
    rw [callValue_of_lt _ paren hf hvs hlt, Exec.nested] at hfault
    split at hfault
    · cases hfault
    · next hrun =>
      obtain ⟨hhalt, hmachine⟩ := EStateM.Result.error.inj hfault
      rw [hhalt] at hrun
      have hheap := congrArg Machine.heap hmachine
      exact heap_ne_of_invoke_fault hrun hheap
  · exact ⟨.stackOverflow, rfl, callValue_of_le _ paren hf hvs (Nat.le_of_eq hdepth.symm)⟩

/-- A function that calls itself, with room for one call: the second call is not made. -/
theorem context_of_active_recursive :
    let name : Token := ⟨.symbol .identifier, "f", 1⟩
    let call : Expr := .call (.var 0 name) name []
    let m : Machine :=
      { heap :=
          { frames := ⟨#[(∅ : Frame).insert "f" (.function 0)]⟩
            functions := #[⟨⟨name, [], [.expression call]⟩, globalChain, false⟩] }
        chain := globalChain, depth := maxCallDepth - 1, locals := ∅, sink := {}, clock := {} }
    let start : Run := ⟨3, .call (.function 0) name [], m⟩
    callValue (Lox.execute 3) (.function 0) name [] m ≠ .error (.fault 1 .stackOverflow) m ∧
      ∃ r outer, start.Active (r :: outer) ∧ outer.length = 7 ∧
        r.after.chain = r.machine.chain ∧ r.after.depth = maxCallDepth ∧
        (∃ fault : RuntimeFault, fault.message = "Stack overflow." ∧
          callValue (Lox.execute r.fuel) (.function 0) name [] r.machine =
            .error (.fault 1 fault) r.machine) ∧ ¬ ∃ r', r.Begins r' := by
  intro name call m start
  have hactive := ((((((Active.start : start.Active [start]).begin
    (.invoke rfl rfl (by decide))).begin .closure).begin .closureBody).begin .body).begin
      .statement).begin (.expression (List.mem_singleton_self call))
  have hcall := hactive.begin (.call rfl rfl)
  obtain ⟨-, -, -, hmade⟩ := context_of_active (by decide) (Active.start : start.Active [start])
  obtain ⟨⟨hchain, hdepth⟩, -, -, hoverflow⟩ := context_of_active (by decide) hcall
  obtain ⟨hfirst, -⟩ := hmade _ _ _ _ rfl rfl rfl
  obtain ⟨hsecond, hbegins, -⟩ := hoverflow _ _ _ _ rfl rfl rfl
  refine ⟨fun hfault => ?_, _, _, hcall, rfl, hchain, hdepth, hsecond.2 rfl, ?_⟩
  · exact absurd (hfirst.1 ⟨_, rfl, hfault⟩) (by decide)
  · exact mt hbegins.1 (by decide)

end Run

end Lox
