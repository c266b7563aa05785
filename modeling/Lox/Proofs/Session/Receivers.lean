import Lox.Proofs.Session.Binding

/-!
# Receivers, initializers and arguments

At all moments of a session, `this` in the code of a bound method is the instance that the method
was bound to. So it is in the functions that are declared there. A bound initializer gives its
receiver, a call of a class gives a new instance of this class, and each call of a function has one
argument for each parameter.
-/

namespace Lox

open Exec

/-! ## Arguments -/

/-- The frame of a call: parameters that come later do not matter for other names. -/
theorem get?_foldl_insert_of_notMem {params : List Token} {arguments : List Value} {x : String}
    (hx : x ∉ params.map Token.lexeme) (frame : Frame) :
    ((params.zip arguments).foldl (fun frame p => frame.insert p.1.lexeme p.2) frame).get? x =
      frame.get? x := by
  induction params generalizing arguments frame with
  | nil => rfl
  | cons p params ih =>
    obtain ⟨hne, hx⟩ := List.ne_and_not_mem_of_not_mem_cons hx
    cases arguments with
    | nil => rfl
    | cons v arguments =>
      rw [List.zip_cons_cons, List.foldl_cons, ih hx, Table.get?_insert_of_ne _ _ hne]

/-- Where no two parameters have one name, each has its own argument. -/
theorem get?_callFrame {params : List Token} {arguments : List Value}
    (hnodup : (params.map Token.lexeme).Nodup) (hlength : arguments.length = params.length)
    {j : Nat} {p : Token} (hp : params[j]? = some p) :
    (callFrame params arguments).get? p.lexeme = arguments[j]? := by
  unfold callFrame
  generalize (∅ : Frame) = frame
  induction params generalizing arguments frame j with
  | nil => cases hp
  | cons q params ih =>
    obtain ⟨hq, hnodup⟩ := List.nodup_cons.1 hnodup
    cases arguments with
    | nil => cases hlength
    | cons v arguments =>
      rw [List.zip_cons_cons, List.foldl_cons]
      cases j with
      | zero =>
        obtain rfl := Option.some.inj hp
        rw [get?_foldl_insert_of_notMem hq, Table.get?_insert_self]
        rfl
      | succ j => exact ih hnodup (Nat.succ.inj hlength) hp _

/-! ## What calls give -/

/-- An initializer that ends gives what its receiver is then. -/
theorem runClosure_of_initializer {exec : Stmt → Exec Completion} {c : Closure} {vs : List Value}
    {v : Value} {m m' : Machine} (hc : c.isInitializer = true)
    (h : runClosure exec c vs m = .ok v m') :
    m'.heap.frames.getAt c.chain 0 "this" = .ok v := by
  rw [runClosure] at h
  cases hbody : executeInFrame exec (callFrame c.decl.params vs) c.chain c.decl.body m with
  | error halt m₁ =>
    simp only [Bind.bind, EStateM.bind, hbody] at h
    cases h
  | ok completion m₁ =>
    rw [bind_of_ok hbody, if_pos hc, get_bind_apply] at h
    cases hthis : m₁.heap.frames.getAt c.chain 0 "this" with
    | ok a =>
      rw [hthis] at h
      cases h
      exact hthis
    | error fault =>
      rw [hthis] at h
      cases h

/-- What is found in the innermost frame of a chain is in this frame. -/
theorem Frames.get?_of_getAt_zero {frames : Frames} {id : FrameId} {outer : Chain} {name : String}
    {v : Value} (h : frames.getAt (id :: outer) 0 name = .ok v) :
    (frames.frame id).get? name = some v := by
  have hframe : Frames.frameAt name (id :: outer) 0 = .ok id := rfl
  rw [Frames.getAt, hframe] at h
  simp only [bind, Except.bind] at h
  cases hget : (frames.frame id).get? name with
  | some a =>
    rw [hget] at h
    cases h
    rfl
  | none =>
    rw [hget] at h
    cases h

/-- A call that ends was allowed, and what it calls was run. -/
theorem exists_invoke_of_callValue {exec : Stmt → Exec Completion} {callee : Value} {f : Callable}
    {paren : Token} {vs : List Value} {v : Value} {m m' : Machine}
    (hf : m.heap.callable? callee = some f) (h : callValue exec callee paren vs m = .ok v m') :
    vs.length = m.heap.arity f ∧ m.depth < maxCallDepth ∧
      ∃ m₁, invoke exec vs f { m with depth := m.depth + 1 } = .ok v m₁ ∧ m'.heap = m₁.heap := by
  rw [callValue, get_bind_apply, hf] at h
  simp only at h
  split at h
  · cases h
  next harity =>
    split at h
    · cases h
    next hdepth =>
      simp only [nested] at h
      split at h
      next hinvoke =>
        cases h
        exact ⟨not_not.1 harity, Nat.lt_of_not_le hdepth, _, hinvoke, rfl⟩
      · cases h

/-- Making an instance gives the next one, and the heap grows from the one with the new instance,
whatever the initializer does. -/
theorem grows_of_construct {fuel : Nat} {k : ClassId} {vs : List Value} {v : Value} {m m' : Machine}
    (hm : m.heap.Orderly) (h : construct (execute fuel) k vs m = .ok v m') :
    v = .instance_ m.heap.instances.size ∧ (m.heap.newInstance k).2.Grows m'.heap := by
  have horderly : (m.heap.newInstance k).2.Orderly := ⟨hm.functions, hm.methods⟩
  cases hinit : (m.heap.newInstance k).2.initializer? k with
  | none =>
    rw [construct, withHeap_bind_apply, get_bind_apply] at h
    simp only [hinit] at h
    cases h
    exact ⟨rfl, .refl _⟩
  | some init =>
    have hmade : Machine.Above (m.heap.newInstance k).2
        { m with heap := (m.heap.newInstance k).2 } := ⟨.refl _, horderly⟩
    have hbound := hmade.frames (Frames.extends_push (m.heap.newInstance k).2.frames
      ((∅ : Frame).insert "this" (.instance_ m.heap.instances.size)))
    have hrun := (keepsAbove (m.heap.newInstance k).2 fuel).2.runClosure
      (c := { init with chain := m.heap.frames.next :: init.chain })
      (horderly.findMethod? hinit).1 vs
    rw [construct_of_initializer? vs hinit] at h
    refine ⟨?_, ((hrun.bind fun _ => keeps_pure _).of_ok hbound h).1⟩
    simp only [Bind.bind, EStateM.bind] at h
    split at h
    · cases h
      rfl
    · cases h

/-- A call of a class that ends gives the next instance, which has this class. -/
theorem cls_of_callValue {fuel : Nat} {k : ClassId} {paren : Token} {vs : List Value} {v : Value}
    {m m' : Machine} (hm : m.heap.Orderly)
    (h : callValue (execute fuel) (.class_ k) paren vs m = .ok v m') :
    v = .instance_ m.heap.instances.size ∧ m.heap.instances.size < m'.heap.instances.size ∧
      (m'.heap.inst m.heap.instances.size).cls = k := by
  obtain ⟨-, -, m₁, hmade, hheap⟩ := exists_invoke_of_callValue rfl h
  obtain ⟨rfl, hgrows⟩ := grows_of_construct (m := { m with depth := m.depth + 1 }) hm hmade
  have hlt : m.heap.instances.size < (m.heap.newInstance k).2.instances.size := by
    simp [Heap.newInstance]
  have hcls : ((m.heap.newInstance k).2.inst m.heap.instances.size).cls = k := by
    rw [Heap.inst_newInstance, if_pos rfl]
  rw [hheap]
  exact ⟨rfl, Nat.lt_of_lt_of_le hlt hgrows.instances, (hgrows.cls _ hlt).trans hcls⟩

namespace Session

variable {sink : Sink} {clock : Clock} {steps : List Step} {r : Run} {outer outer' : List Run}
  {h : Heap} {c method : Closure} {i : InstanceId} {fuel : Nat} {m m' : Machine} {vs : List Value}
  {v : Value}

/-! ## Moments -/

/-- In code that belongs to a bound method, `this` is the receiver. -/
theorem Moment.evaluate_thisRef {id : NodeId} {keyword : Token}
    (hr : Moment (initial sink clock) steps (r :: outer)) (hbinds : r.Binds h method i)
    (he : Moment (initial sink clock) steps
      (⟨fuel + 1, .evaluate (.thisRef id keyword), m⟩ :: outer'))
    (hrunning : Run.running? outer' = some c)
    (hc : Belongs (initial sink clock) steps (h.bindReceiver method (.instance_ i)).1 c) :
    Lox.evaluate (fuel + 1) (.thisRef id keyword) m = .ok (.instance_ i) m := by
  have hreceives := hr.receives hbinds
  have hkeyword : keyword.lexeme = "this" := he.observed.orderly.2
  obtain ⟨d, hfound, hd⟩ := (he.exists_foundAt hrunning hc hreceives
    (fun _ _ => List.mem_singleton_self _)).1 rfl hkeyword
  have hsize := hfound.bounded _ (List.mem_of_getElem? hfound.receiver)
  have hthis := he.observed.grows.provided_before (.inl rfl) hsize hreceives.this
  have hget := Frames.getAt_of_get? hfound.receiver hthis
  change lookUp id keyword m = _
  rw [lookUp, get_bind_apply, hd]
  simp only [hkeyword]
  rw [hget]
  rfl

/-- A bound initializer that ends gives its receiver. -/
theorem Moment.eq_receiver_of_initializer
    (hr : Moment (initial sink clock) steps (r :: outer)) (hbinds : r.Binds h method i)
    (hcall : Moment (initial sink clock) steps
      (⟨fuel, .closure (h.bindReceiver method (.instance_ i)).1 vs, m⟩ :: outer'))
    (hinit : method.isInitializer = true)
    (hv : runClosure (Lox.execute fuel) (h.bindReceiver method (.instance_ i)).1 vs m = .ok v m') :
    v = .instance_ i := by
  have hbehind := hcall.observed.grows_after
  rw [Run.after_eq] at hbehind
  simp only [Task.leaves, Exec.after, hv] at hbehind
  have hfound := runClosure_of_initializer (c := (h.bindReceiver method (.instance_ i)).1) hinit hv
  have hthis := Frames.get?_of_getAt_zero hfound
  have hend := hbehind.provided (.inl rfl) hthis
  exact Option.some.inj (hend.symm.trans (hr.receives hbinds).this)

/-- A call of a bound initializer that ends gives its receiver. -/
theorem Moment.eq_receiver_of_callValue {f : FunctionId} {paren : Token}
    (hr : Moment (initial sink clock) steps (r :: outer)) (hbinds : r.Binds h method i)
    (hcall : Moment (initial sink clock) steps
      (⟨fuel, .call (.function f) paren vs, m⟩ :: outer'))
    (hf : m.heap.function f = (h.bindReceiver method (.instance_ i)).1)
    (hinit : method.isInitializer = true)
    (hv : callValue (Lox.execute fuel) (.function f) paren vs m = .ok v m') : v = .instance_ i := by
  have hcallable : m.heap.callable? (.function f) =
      some (.closure (h.bindReceiver method (.instance_ i)).1) := by rw [Heap.callable?, hf]
  obtain ⟨hvs, hdepth, m₁, hrun, -⟩ := exists_invoke_of_callValue hcallable hv
  have hclosure := (hcall.begin (.invoke hcallable hvs hdepth)).begin .closure
  exact hr.eq_receiver_of_initializer hbinds hclosure hinit hrun

/-- A method that is bound is known to be an initializer by its name. -/
theorem Moment.isInitializer_of_binds (hr : Moment (initial sink clock) steps (r :: outer))
    (hbinds : r.Binds h method i) : method.isInitializer = method.decl.isInitializer := by
  obtain ⟨k, name, hk⟩ := hbinds.exists_class
  rw [← hr.methods_of_binds hbinds hk] at hk
  exact ((above_after (orderly_initial sink clock) steps).2.methods k name method hk).2

/-- A call of a function has as many arguments as there are parameters. -/
theorem Moment.length_arguments
    (hcall : Moment (initial sink clock) steps (⟨fuel, .closure c vs, m⟩ :: outer)) :
    vs.length = c.decl.params.length := by
  obtain ⟨us, before, ⟨-, harity, -⟩, -⟩ := hcall.observed.placed
  exact harity

/-- The parameters of a function have their arguments when its body runs. -/
theorem Moment.argument_of_begins {body : Run}
    (hcall : Moment (initial sink clock) steps (⟨fuel, .closure c vs, m⟩ :: outer))
    (hbegins : Run.Begins ⟨fuel, .closure c vs, m⟩ body) :
    ∃ id, body.chain = id :: c.chain ∧ ∀ (j : Nat) (p : Token), c.decl.params[j]? = some p →
      (body.machine.heap.frames.frame id).get? p.lexeme = vs[j]? := by
  have hnodup := Region.nodup_params hcall.observed.orderly.2.2.1
  cases hbegins with
  | closureBody =>
    refine ⟨m.heap.frames.next, rfl, fun j p hp => ?_⟩
    change ((m.heap.frames.push _).frame m.heap.frames.next).get? p.lexeme = _
    rw [Frames.frame_push_next]
    exact get?_callFrame hnodup hcall.length_arguments hp

/-- A method that is bound by an expression is a function from then on. -/
theorem Moment.function_of_binds (hr : Moment (initial sink clock) steps (r :: outer))
    (hbinds : r.Binds h method i) {e : Expr} (he : r.task = .evaluate e) :
    ∃ f m', Lox.evaluate r.fuel e r.machine = .ok (.function f) m' ∧
      ∀ r' outer', Moment (initial sink clock) steps (r' :: outer') →
        f < r'.machine.heap.functions.size →
          r'.machine.heap.function f = (h.bindReceiver method (.instance_ i)).1 := by
  obtain ⟨m', hvalue, hheap⟩ := hbinds.evaluate_eq he
  have hbehind := hr.observed.grows_after
  rw [Run.after_eq, he] at hbehind
  simp only [Task.leaves, Exec.after, hvalue, hheap] at hbehind
  refine ⟨_, m', hvalue, fun r' outer' hr' hlt => ?_⟩
  have hnew : h.functions.size < (h.bindMethod method (.instance_ i)).2.functions.size := by
    simp [Heap.bindMethod, Heap.newFunction, Heap.bindReceiver, Heap.newFrame]
  have hself : (h.bindMethod method (.instance_ i)).2.function h.functions.size =
      (h.bindReceiver method (.instance_ i)).1 :=
    (Heap.function_newFunction _ _ _).trans (if_pos rfl)
  rw [← hr'.observed.grows.function _ hlt, hbehind.function _ hnew, hself]

/-- Whatever is done with a session, receivers hold. Let a run bind a method to an instance, be it
by reading a property, through `super`, or by making the instance. The bound method is the value of
an expression that binds it, at all moments at which there is this function, and making an instance
runs it. Whenever `this` is evaluated in the code of the bound method, or of a function that is
declared there, it is the instance. If the method is an initializer, then each call of the bound
method that ends gives the instance, be it a call of its function or the one that making the
instance runs. Each call of a class that ends gives an instance of this class that is none of those
before the call. And each call of a function has as many arguments as there are parameters, each of
which has its argument in the frame that the body runs in. -/
theorem receivers_hold (sink : Sink) (clock : Clock) (steps : List Step) :
    let s := initial sink clock
    (∀ r outer h method i, s.Moment steps (r :: outer) → r.Binds h method i →
      let bound := (h.bindReceiver method (.instance_ i)).1
      (∀ e, r.task = .evaluate e →
        ∃ f m', Lox.evaluate r.fuel e r.machine = .ok (.function f) m' ∧
          ∀ r' outer', s.Moment steps (r' :: outer') → f < r'.machine.heap.functions.size →
            r'.machine.heap.function f = bound) ∧
      (∀ f vs, r.task = .invoke f vs → ∃ m', r.Begins ⟨r.fuel, .closure bound vs, m'⟩) ∧
      (∀ fuel id keyword m outer' c,
        s.Moment steps (⟨fuel + 1, .evaluate (.thisRef id keyword), m⟩ :: outer') →
          Run.running? outer' = some c → s.Belongs steps bound c →
            Lox.evaluate (fuel + 1) (.thisRef id keyword) m = .ok (.instance_ i) m) ∧
      (method.decl.name.lexeme = initializerName →
        (∀ fuel f paren vs m outer' v m',
          s.Moment steps (⟨fuel, .call (.function f) paren vs, m⟩ :: outer') →
            m.heap.function f = bound →
              callValue (Lox.execute fuel) (.function f) paren vs m = .ok v m' →
                v = .instance_ i) ∧
        ∀ fuel vs m outer' v m', s.Moment steps (⟨fuel, .closure bound vs, m⟩ :: outer') →
          runClosure (Lox.execute fuel) bound vs m = .ok v m' → v = .instance_ i)) ∧
    (∀ fuel k paren vs m outer v m',
      s.Moment steps (⟨fuel, .call (.class_ k) paren vs, m⟩ :: outer) →
      callValue (Lox.execute fuel) (.class_ k) paren vs m = .ok v m' →
        ∃ i, v = .instance_ i ∧ i < m'.heap.instances.size ∧ (m'.heap.inst i).cls = k ∧
          ∀ j < m.heap.instances.size, j ≠ i) ∧
    ∀ fuel c vs m outer, s.Moment steps (⟨fuel, .closure c vs, m⟩ :: outer) →
      vs.length = c.decl.params.length ∧
        ∀ body, Run.Begins ⟨fuel, .closure c vs, m⟩ body → ∃ id, body.chain = id :: c.chain ∧
          ∀ (j : Nat) (p : Token), c.decl.params[j]? = some p →
            (body.machine.heap.frames.frame id).get? p.lexeme = vs[j]? := by
  intro s
  refine ⟨fun r outer h method i hr hbinds => ⟨?_, ?_, ?_, ?_⟩, ?_, ?_⟩
  · exact fun e he => hr.function_of_binds hbinds he
  · exact fun f vs hf => ⟨_, hbinds.begins_closure hf⟩
  · exact fun fuel id keyword m outer' c he hrunning hc =>
      hr.evaluate_thisRef hbinds he hrunning hc
  · intro hname
    have hinit : method.isInitializer = true := by
      rw [hr.isInitializer_of_binds hbinds]
      simp [FunctionDecl.isInitializer, hname]
    exact ⟨fun fuel f paren vs m outer' v m' hcall hf hv =>
        hr.eq_receiver_of_callValue hbinds hcall hf hinit hv,
      fun fuel vs m outer' v m' hcall hv =>
        hr.eq_receiver_of_initializer hbinds hcall hinit hv⟩
  · intro fuel k paren vs m outer v m' hcall hv
    obtain ⟨rfl, hlt, hcls⟩ := cls_of_callValue hcall.observed.orderly.1 hv
    exact ⟨_, rfl, hlt, hcls, fun j hj => Nat.ne_of_lt hj⟩
  · intro fuel c vs m outer hcall
    exact ⟨hcall.length_arguments, fun body hbegins => hcall.argument_of_begins hbegins⟩

/-- A function that is declared in an initializer, which making an instance runs. -/
theorem receivers_hold_nested :
    let s := initial {} {}
    let steps := [Step.run 6 "class A { init() { fun f() { this; } f(); } } A();"]
    ∃ r outer h method fuel id keyword m outer' c, s.Moment steps (r :: outer) ∧
      r.Binds h method 0 ∧
      s.Moment steps (⟨fuel + 1, .evaluate (.thisRef id keyword), m⟩ :: outer') ∧
      Run.running? outer' = some c ∧ c.decl.name.lexeme = "f" ∧
      s.Belongs steps (h.bindReceiver method (.instance_ 0)).1 c ∧
      Lox.evaluate (fuel + 1) (.thisRef id keyword) m = .ok (.instance_ 0) m := by
  intro s steps
  let f : FunctionDecl := ⟨.named "f", [], [.expression (.thisRef 0 ⟨.symbol .kwThis, "this", 1⟩)]⟩
  let init : FunctionDecl :=
    ⟨.named "init", [], [.funDecl f, .expression (.call (.var 1 (.named "f")) .paren [])]⟩
  let declaration : Stmt := .classDecl ⟨.named "A", none, [init], []⟩
  let program : List Stmt := [declaration, .expression (.call (.var 2 (.named "A")) .paren [])]
  let m₀ := (Machine.initial {} {}).noteAll
    [⟨0, "this", some 2⟩, ⟨1, "f", some 0⟩, ⟨2, "A", none⟩]
  have hstart : s.Moment steps [⟨6, .program program, m₀⟩] :=
    .first (by decide +kernel) (by decide +kernel) (by decide +kernel)
  let globals := Machine.initialGlobals.insert "A" (.class_ 0)
  let receiver : Frame := ⟨[("this", .instance_ 0)]⟩
  let a : ClassObject := ⟨"A", [], ⟨[("init", ⟨init, [0], true⟩)]⟩, ∅⟩
  let m₁ := m₀.holding [globals] [] [a] [] [0] 0
  let m₂ := m₀.holding [globals, receiver] [] [a] [⟨0, ∅⟩] [0] 1
  let m₃ := m₀.holding [globals, receiver, ∅] [] [a] [⟨0, ∅⟩] [2, 1, 0] 1
  let m₄ := m₀.holding [globals, receiver, ⟨[("f", .function 0)]⟩] [⟨f, [2, 1, 0], false⟩] [a]
    [⟨0, ∅⟩] [2, 1, 0] 1
  have hdeclared : Lox.execute 6 declaration m₀ = .ok .normal m₁ := rfl
  have hclass : Lox.evaluate 5 (.var 2 (.named "A")) m₁ = .ok (.class_ 0) m₁ := rfl
  have hmake := ((((hstart.begin (.laterProgram hdeclared)).begin .topLevel).begin
    (.expression (List.mem_singleton_self _))).begin (.call hclass rfl)).begin
      (.invoke rfl rfl (by decide))
  have hinit : Run.Begins ⟨4, .invoke (.constructor 0) [], { m₁ with depth := 1 }⟩
      ⟨4, .closure ⟨init, [1, 0], true⟩ [], m₂⟩ := .initializer rfl rfl rfl
  have hbody := ((hmake.begin hinit).begin .closureBody).begin .body
  have hdeclare : s.Moment steps (⟨4, .execute (.funDecl f), m₃⟩ :: _) := hbody.begin .statement
  have hfunction : Lox.execute 4 (.funDecl f) m₃ = .ok .normal m₄ := rfl
  have hf : Lox.evaluate 2 (.var 1 (.named "f")) m₄ = .ok (.function 0) m₄ := rfl
  have hcall := ((((hbody.begin (.laterStatements hfunction)).begin .statement).begin
    (.expression (List.mem_singleton_self _))).begin (.call hf rfl)).begin
      (.invoke rfl rfl (by decide))
  have hthis := ((((hcall.begin .closure).begin .closureBody).begin .body).begin .statement).begin
    (.expression (List.mem_singleton_self _))
  have hbelongs : s.Belongs steps ⟨init, [1, 0], true⟩ ⟨f, [2, 1, 0], false⟩ :=
    Belongs.self.declared hdeclare rfl
  exact ⟨_, _, _, _, _, _, _, _, _, _, hmake, .construction rfl, hthis, rfl, rfl, hbelongs,
    ((receivers_hold {} {} steps).1 _ _ _ _ _ hmake (.construction rfl)).2.2.1 _ _ _ _ _ _ hthis
      rfl hbelongs⟩

end Session

end Lox
