import Lox.Proofs.Session.Moments

/-!
# Methods that are bound to a receiver

A method is bound to an instance when it is read from the instance, when it is read through `super`,
and when an instance is made. This makes a frame for the receiver, and the bound method sees one
more frame than the method. The code of the bound method, and that of the functions that are
declared in it, runs in a chain in which this frame is the innermost one that was made for a
receiver. So it is the one that the recorded distances lead to.
-/

namespace Lox

open Exec

variable {id : FrameId} {name : String} {v : Value} {start : ClassId} {m : Machine}

/-! ## Frames of receivers -/

theorem Frames.lt_size_of_get? {frames : Frames} (h : (frames.frame id).get? name = some v) :
    id < frames.size := by
  refine Nat.lt_of_not_le fun hle => ?_
  have hempty : frames.frame id = ∅ := by
    rw [Frames.frame, Array.getD_eq_getD_getElem?, Array.getElem?_eq_none hle]
    rfl
  rw [hempty] at h
  cases h

/-- What the language provides in a frame stays. -/
theorem Heap.Grows.provided {h h' : Heap} (hh : h.Grows h') (hname : name = "this" ∨ name = "super")
    (hv : (h.frames.frame id).get? name = some v) : (h'.frames.frame id).get? name = some v :=
  (hh.frames.provided id (Frames.lt_size_of_get? hv) name hname).trans hv

/-- What the language provides in a frame was there before. -/
theorem Heap.Grows.provided_before {h h' : Heap} (hh : h.Grows h')
    (hname : name = "this" ∨ name = "super") (hid : id < h.frames.size)
    (hv : (h'.frames.frame id).get? name = some v) : (h.frames.frame id).get? name = some v :=
  (hh.frames.provided id hid name hname).symm.trans hv

/-- Two splits of one chain. If the frame `id` was made for a receiver and those in front of it were
not, then it is the frame for the innermost scope that is made for one. -/
theorem Stands.length_eq {events : List Event} {inner outer : List Layer} {front rest : Chain}
    {m method : FunctionDecl} {around : Chain}
    (h : Stands events (inner ++ .receiver m :: outer) (front ++ id :: rest))
    (hnodup : (openings events).Nodup) (hinner : ∀ l ∈ inner, ∀ method, l.region ≠ .receiver method)
    (hfront : ∀ i ∈ front, MadeForCode events i)
    (hid : .opened id (.receiver method) around ∈ events) : inner.length = front.length := by
  induction inner generalizing front with
  | nil =>
    cases front with
    | nil => rfl
    | cons i front =>
      cases h with
      | inner hopened _ =>
        obtain ⟨region, outer', hmem, hregion⟩ := hfront i List.mem_cons_self
        exact absurd (opened_unique hnodup hmem hopened).1 (hregion m)
  | cons l inner ih =>
    obtain ⟨hl, hinner⟩ := List.forall_mem_cons.1 hinner
    cases front with
    | nil =>
      cases h with
      | inner hopened _ => exact absurd (opened_unique hnodup hopened hid).1 (hl method)
    | cons i front =>
      cases h with
      | inner _ h =>
        exact congrArg (· + 1) (ih h hinner (List.forall_mem_cons.1 hfront).2)

/-! ## Binding -/

/-- Reading a method from an instance gives a new function. -/
theorem getMember_of_method {i : InstanceId} {name : Token} {c : Closure}
    (h : m.heap.member? start i name.lexeme = some (.method c)) :
    getMember start i name m = .ok (.function m.heap.functions.size)
      { m with heap := (m.heap.bindMethod c (.instance_ i)).2 } := by
  rw [getMember, get_bind_apply, h]
  rfl

theorem getMember_of_field {i : InstanceId} {name : Token}
    (h : (m.heap.inst i).fields.get? name.lexeme = some v) :
    getMember start i name m = .ok v m := by
  have hmember : m.heap.member? start i name.lexeme = some (.field v) := by
    simp only [Heap.member?, h]
  rw [getMember, get_bind_apply, hmember]
  rfl

theorem getMember_of_none {i : InstanceId} {name : Token}
    (h : m.heap.member? start i name.lexeme = none) : getMember start i name m =
      .error (.fault name.line (.undefinedProperty name.lexeme)) m := by
  rw [getMember, get_bind_apply, h]
  rfl

/-- Where an instance has no field of a name, the first method counts. -/
theorem Heap.member?_of_no_field {heap : Heap} {i : InstanceId}
    (h : (heap.inst i).fields.get? name = none) :
    heap.member? start i name = (heap.findMethod? (heap.lineage start) name).map .method := by
  simp only [Heap.member?, h]

theorem superMember_of_getAt {id : NodeId} {keyword name : Token} {d : Nat} {k : ClassId}
    {i : InstanceId} (hd : m.locals[id]? = some (d + 1))
    (hk : m.heap.frames.getAt m.chain (d + 1) keyword.lexeme = .ok (.class_ k))
    (hi : m.heap.frames.getAt m.chain d "this" = .ok (.instance_ i)) :
    superMember id keyword name m = getMember k i name m := by
  rw [superMember, get_bind_apply, hd]
  simp only [hk, hi]
  rfl

namespace Run

/-- A run binds a method to an instance, on the given heap: it reads the method from the instance,
it reads it through `super`, or it makes the instance and the method is the initializer. -/
inductive Binds : Run → Heap → Closure → InstanceId → Prop
  | property {fuel : Nat} {object : Expr} {name : Token} {i : InstanceId} {c : Closure}
      {m m' : Machine} (hobject : evaluate fuel object m = .ok (.instance_ i) m')
      (hc : m'.heap.member? (m'.heap.inst i).cls i name.lexeme = some (.method c)) :
    Binds ⟨fuel + 1, .evaluate (.get object name), m⟩ m'.heap c i
  | super {fuel : Nat} {id : NodeId} {keyword name : Token} {d : Nat} {k : ClassId}
      {i : InstanceId} {c : Closure} {m : Machine} (hd : m.locals[id]? = some (d + 1))
      (hk : m.heap.frames.getAt m.chain (d + 1) keyword.lexeme = .ok (.class_ k))
      (hi : m.heap.frames.getAt m.chain d "this" = .ok (.instance_ i))
      (hc : m.heap.member? k i name.lexeme = some (.method c)) :
    Binds ⟨fuel + 1, .evaluate (.superRef id keyword name), m⟩ m.heap c i
  | construction {fuel : Nat} {k : ClassId} {c : Closure} {vs : List Value} {m : Machine}
      (hc : m.heap.initializer? k = some c) :
    Binds ⟨fuel, .invoke (.constructor k) vs, m⟩ (m.heap.newInstance k).2 c m.heap.instances.size

variable {r : Run} {h : Heap} {c : Closure} {i : InstanceId}

/-- A method that is bound by an expression is the value of the expression, as a new function. -/
theorem Binds.evaluate_eq (hr : r.Binds h c i) {e : Expr} (he : r.task = .evaluate e) :
    ∃ m', evaluate r.fuel e r.machine = .ok (.function h.functions.size) m' ∧
      m'.heap = (h.bindMethod c (.instance_ i)).2 := by
  cases hr with
  | property hobject hc =>
    cases he
    exact ⟨_, (Exec.bind_of_ok hobject).trans (getMember_of_method hc), rfl⟩
  | super hd hk hi hc =>
    cases he
    exact ⟨_, (superMember_of_getAt hd hk hi).trans (getMember_of_method hc), rfl⟩
  | construction => cases he

/-- A method that is bound because an instance is made is run. -/
theorem Binds.begins_closure (hr : r.Binds h c i) {f : Callable} {vs : List Value}
    (hf : r.task = .invoke f vs) :
    r.Begins ⟨r.fuel, .closure (h.bindReceiver c (.instance_ i)).1 vs,
      { r.machine with heap := (h.bindReceiver c (.instance_ i)).2 }⟩ := by
  cases hr with
  | construction hc =>
    cases hf
    exact .initializer rfl hc rfl
  | property | super => cases hf

/-- A frame is made for the receiver. -/
theorem Binds.opened_mem (hr : r.Binds h c i) :
    .opened h.frames.next (.receiver c.decl) c.chain ∈ r.events := by
  cases hr with
  | @property fuel object name i c m m' hobject hc =>
    have hevents : evaluateTrace .frames (fuel + 1) (.get object name) m =
        evaluateTrace .frames fuel object m ++ getPropertyTrace .frames (.instance_ i) name m' :=
      Trace.andThen_of_ok _ _ hobject
    have hread : getPropertyTrace .frames (.instance_ i) name m' =
        [.opened m'.heap.frames.next (.receiver c.decl) c.chain] := by
      simp only [getPropertyTrace, getMemberTrace, hc]
      rfl
    rw [Run.events, Task.events, hevents, hread]
    exact List.mem_append_right _ List.mem_cons_self
  | @super fuel id keyword name d k i c m hd hk hi hc =>
    have hread : superMemberTrace .frames id keyword name m =
        [.opened m.heap.frames.next (.receiver c.decl) c.chain] := by
      simp only [superMemberTrace, hd, hk, hi, getMemberTrace, hc]
      rfl
    change _ ∈ Labels.frames.referred id keyword m ++ superMemberTrace .frames id keyword name m
    rw [hread]
    exact List.mem_append_right _ List.mem_cons_self
  | @construction fuel k c vs m hc =>
    change _ ∈ constructTrace .frames (execute fuel) (executeTrace .frames fuel) k vs m
    rw [constructEvents_of_initializer? vs hc]
    exact List.mem_cons_self

/-- The method was found on the heap. -/
theorem Binds.exists_class (hr : r.Binds h c i) :
    ∃ k name, (h.cls k).methods.get? name = some c := by
  cases hr with
  | property _ hc | super _ _ _ hc =>
    obtain ⟨k, hk⟩ := Heap.exists_of_member? hc
    exact ⟨k, _, hk⟩
  | @construction _ k _ _ m hc =>
    have hc' : (m.heap.newInstance k).2.initializer? k = some c := hc
    obtain ⟨k', hk'⟩ := Heap.exists_of_findMethod? hc'
    exact ⟨k', _, hk'⟩

end Run

namespace Session

/-! ## Functions that belong to a bound method -/

/-- A function belongs to the given one if it is this one, or if it is declared while the code of a
function runs that belongs to it. Methods of classes that are declared there do not. -/
inductive Belongs (s : Session) (steps : List Step) (bound : Closure) : Closure → Prop
  | self : Belongs s steps bound bound
  | declared {c : Closure} {decl : FunctionDecl} {fuel : Nat} {m : Machine} {outer : List Run}
      (hc : Belongs s steps bound c)
      (h : s.Moment steps (⟨fuel + 1, .execute (.funDecl decl), m⟩ :: outer))
      (hrunning : Run.running? outer = some c) : Belongs s steps bound ⟨decl, m.chain, false⟩

variable {sink : Sink} {clock : Clock} {steps : List Step} {r : Run} {outer : List Run} {h : Heap}
  {c method : Closure} {i : InstanceId}

/-- The chain that a function sees which belongs to another one. -/
theorem Belongs.exists_chain {bound : Closure} (hc : Belongs (initial sink clock) steps bound c) :
    ∃ inner, c.chain = inner ++ bound.chain ∧
      ∀ id ∈ inner, MadeForCode ((initial sink clock).events steps) id := by
  induction hc with
  | self => exact ⟨[], rfl, List.forall_mem_nil _⟩
  | declared _ h hrunning ih =>
    obtain ⟨inner, hchain, hinner⟩ := ih
    obtain ⟨front, hfront, hmade⟩ := h.observed.chain rfl _ hrunning
    refine ⟨front ++ inner, ?_, List.forall_mem_append.2 ⟨hmade, hinner⟩⟩
    rw [List.append_assoc, ← hchain]
    exact hfront

/-- The frame of a receiver: it was made for the receiver, and it holds the receiver in the end. -/
structure Receives (events : List Event) (heap : Heap) (method : Closure) (i : InstanceId)
    (frame : FrameId) : Prop where
  opened : .opened frame (.receiver method.decl) method.chain ∈ events
  this : (heap.frames.frame frame).get? "this" = some (.instance_ i)

/-- A heap on which a method was bound grows to the one that the session ends with. -/
theorem Moment.grows_bindReceiver (hr : Moment (initial sink clock) steps (r :: outer))
    (hbinds : r.Binds h method i) :
    (h.bindReceiver method (.instance_ i)).2.Grows
      ((initial sink clock).after steps).machine.heap := by
  have hafter := hr.observed.grows_after
  rw [Run.after_eq] at hafter
  have hvalue : ∀ e, r.task = .evaluate e → (h.bindReceiver method (.instance_ i)).2.Grows
      ((initial sink clock).after steps).machine.heap := by
    intro e he
    obtain ⟨m', hm', hheap⟩ := hbinds.evaluate_eq he
    rw [he] at hafter
    simp only [Task.leaves, Exec.after, hm', hheap] at hafter
    exact (Heap.grows_newFunction _ _).trans hafter
  cases hbinds with
  | property => exact hvalue _ rfl
  | super => exact hvalue _ rfl
  | construction hc =>
    exact (hr.begin ((Run.Binds.construction hc).begins_closure rfl)).observed.grows

/-- A class with a method at a moment at which a method is bound has the same methods in the end. -/
theorem Moment.methods_of_binds (hr : Moment (initial sink clock) steps (r :: outer))
    (hbinds : r.Binds h method i) {k : ClassId} {found : Closure}
    (hk : (h.cls k).methods.get? name = some found) :
    (((initial sink clock).after steps).machine.heap.cls k).methods = (h.cls k).methods := by
  have hgrows : h.Grows ((initial sink clock).after steps).machine.heap :=
    (Heap.grows_frames (Frames.extends_push _ _)).trans (hr.grows_bindReceiver hbinds)
  refine hgrows.methods k (Nat.lt_of_not_le fun hle => ?_)
  have hnone : h.cls k = default := by
    rw [Heap.cls, Array.getD_eq_getD_getElem?, Array.getElem?_eq_none hle]
    rfl
  rw [hnone] at hk
  cases hk

/-- What is known of the frame of a receiver. -/
theorem Moment.receives (hr : Moment (initial sink clock) steps (r :: outer))
    (hbinds : r.Binds h method i) :
    Receives ((initial sink clock).events steps) ((initial sink clock).after steps).machine.heap
      method i h.frames.next := by
  obtain ⟨vs, before, -, hsub, -⟩ := hr.observed.placed
  refine ⟨hsub (List.mem_append_right _ hbinds.opened_mem), ?_⟩
  refine (hr.grows_bindReceiver hbinds).provided (.inl rfl) ?_
  change ((h.frames.push _).frame h.frames.next).get? "this" = _
  rw [Frames.frame_push_next, Table.get?_insert_self]

/-! ## Code that belongs to a bound method -/

/-- In the chain of a machine the frame of the receiver is so many steps out, and behind it is the
chain that the method sees. -/
structure FoundAt (m : Machine) (method : Closure) (frame : FrameId) (d : Nat) : Prop where
  receiver : m.chain[d]? = some frame
  behind : m.chain.drop (d + 1) = method.chain
  bounded : ∀ id ∈ m.chain, id < m.heap.frames.size

/-- In code that belongs to a bound method, the distances that are recorded for `this` and `super`
lead to the frame of the receiver and to the one behind it. -/
theorem Moment.exists_foundAt {e : Expr} {fuel : Nat} {frame : FrameId}
    (he : Moment (initial sink clock) steps (⟨fuel, .evaluate e, m⟩ :: outer))
    (hrunning : Run.running? outer = some c)
    (hc : Belongs (initial sink clock) steps { method with chain := frame :: method.chain } c)
    (hframe : Receives ((initial sink clock).events steps)
      ((initial sink clock).after steps).machine.heap method i frame)
    {id : NodeId} {use : Use}
    (hvisit : ∀ cls layers, ⟨id, name, use, cls, layers⟩ ∈ e.visits cls layers) :
    (use = .receiver → name = "this" →
      ∃ d, FoundAt m method frame d ∧ m.locals[id]? = some d) ∧
    (use = .superclass → name = "super" →
      ∃ d, FoundAt m method frame d ∧ m.locals[id]? = some (d + 1)) := by
  obtain ⟨vs, before, ⟨hinv, cls, layers, -, hvs, hmatches⟩, hsub, -⟩ := he.observed.placed
  obtain ⟨front, hfront, hmade⟩ := he.observed.chain rfl c hrunning
  obtain ⟨inner, hinner, hmade'⟩ := hc.exists_chain
  have hv := hvs _ (hvisit cls layers)
  have hallowed := hinv.allowed _ hv
  have hrecorded : m.locals[id]? = Layers.depth? layers name := hinv.recorded _ hv
  have hchain : m.chain = (front ++ inner) ++ frame :: method.chain := by
    rw [List.append_assoc, ← hinner]
    exact hfront
  have hfound : FoundAt m method frame (front ++ inner).length := by
    refine ⟨?_, ?_, hmatches.bounded⟩
    · rw [hchain, List.getElem?_append_right (Nat.le_refl _), Nat.sub_self]
      rfl
    · rw [hchain, List.drop_append]
      simp
  -- The frames in front of that of the receiver are as many as the scopes in front of its scope.
  have hsplit : cls = .plain ∨ cls = .subclass → ∃ code decl around,
      layers = code ++ .receiver decl :: around ∧ (∀ l ∈ code, l.Plain) ∧
        code.length = (front ++ inner).length ∧
          (cls = .subclass → ∃ d rest, around = .superclass d :: rest) := by
    intro hcls
    obtain ⟨code, decl, around, rfl, hplain, hsuper⟩ := (hinv.within _ hv).exists_split hcls
    have hstands := (hmatches.mono (.refl _)
      fun e he => hsub (List.mem_append_left _ he)).stands
    change Stands _ _ m.chain at hstands
    rw [hchain] at hstands
    exact ⟨code, decl, around, rfl, hplain,
      hstands.length_eq (sound_after sink clock steps).nodup_openings.1
        (fun l hl => (hplain l hl).2.2) (List.forall_mem_append.2 ⟨hmade, hmade'⟩)
        hframe.opened, hsuper⟩
  constructor
  · rintro rfl rfl
    obtain ⟨code, decl, around, rfl, hplain, hlength, -⟩ := hsplit hallowed
    exact ⟨_, hfound, by rw [hrecorded, Layers.depth?_this hplain, hlength]⟩
  · rintro rfl rfl
    obtain ⟨code, decl, around, rfl, hplain, hlength, hsuper⟩ := hsplit (.inr hallowed)
    obtain ⟨d, rest, rfl⟩ := hsuper hallowed
    exact ⟨_, hfound, by rw [hrecorded, Layers.depth?_super hplain, hlength]⟩

end Session

end Lox
