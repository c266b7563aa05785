import Lox.Proofs.Machine.Closed

/-!
# Expressions without effects

An expression without calls, assignments and stores changes nothing that is there. All that it may
do to a machine is to bind methods that it reads, which adds frames and functions. Its value was
there before, or it is a method that was bound.
-/

namespace Lox

/-- An expression without calls, assignments and stores. -/
def Expr.EffectFree : Expr → Prop
  | literal _ | var _ _ | thisRef _ _ | superRef _ _ _ => True
  | grouping e | unary _ e | get e _ => e.EffectFree
  | binary a _ b | logical a _ b => a.EffectFree ∧ b.EffectFree
  | conditional c a b => c.EffectFree ∧ a.EffectFree ∧ b.EffectFree
  | assign _ _ _ | call _ _ _ | set _ _ _ => False

namespace Heap

variable {h h' h'' : Heap}

/-! ## Heaps to which frames and functions were added -/

/-- Only frames and functions were added to a heap. -/
structure Gains (h h' : Heap) : Prop where
  frames : h.frames.size ≤ h'.frames.size
  frame : ∀ i < h.frames.size, h'.frames.frame i = h.frames.frame i
  functions : h.functions.size ≤ h'.functions.size
  function : ∀ f < h.functions.size, h'.function f = h.function f
  classes : h'.classes = h.classes
  instances : h'.instances = h.instances

theorem Gains.refl (h : Heap) : h.Gains h :=
  ⟨Nat.le_refl _, fun _ _ => rfl, Nat.le_refl _, fun _ _ => rfl, rfl, rfl⟩

theorem Gains.trans (hh : h.Gains h') (hh' : h'.Gains h'') : h.Gains h'' where
  frames := Nat.le_trans hh.frames hh'.frames
  frame i hi := (hh'.frame i (Nat.lt_of_lt_of_le hi hh.frames)).trans (hh.frame i hi)
  functions := Nat.le_trans hh.functions hh'.functions
  function f hf := (hh'.function f (Nat.lt_of_lt_of_le hf hh.functions)).trans (hh.function f hf)
  classes := hh'.classes.trans hh.classes
  instances := hh'.instances.trans hh.instances

theorem Gains.cls (hh : h.Gains h') (c : ClassId) : h'.cls c = h.cls c := by
  rw [Heap.cls, Heap.cls, hh.classes]

theorem Gains.inst (hh : h.Gains h') (i : InstanceId) : h'.inst i = h.inst i := by
  rw [Heap.inst, Heap.inst, hh.instances]

theorem gains_newFrame (h : Heap) (frame : Frame) : h.Gains (h.newFrame frame).2 :=
  { Gains.refl h with
    frames := by simp [newFrame]
    frame := fun _ hi => Frames.frame_push_of_lt frame hi }

theorem gains_newFunction (h : Heap) (c : Closure) : h.Gains (h.newFunction c).2 :=
  { Gains.refl h with
    functions := by simp [newFunction]
    function := fun f hf => by rw [function_newFunction, if_neg (Nat.ne_of_lt hf)] }

/-! ## Values -/

/-- A function that was made since the heap `K` is a method of it, bound to a receiver. -/
structure Binds (K h : Heap) (f : FunctionId) (method : Closure) (receiver : InstanceId) :
    Prop where
  fresh : K.functions.size ≤ f
  made : f < h.functions.size
  declared : ∃ c name, (K.cls c).methods.get? name = some method
  lives : receiver < K.instances.size
  bound : ∃ i, K.frames.size ≤ i ∧ i < h.frames.size ∧
    h.function f = { method with chain := i :: method.chain } ∧
    h.frames.frame i = (∅ : Frame).insert "this" (.instance_ receiver)

/-- A value that the heap `K` has, or a method of it that was bound. -/
inductive Yields (K h : Heap) : Value → Prop
  | old {v : Value} (hv : K.Has v) : Yields K h v
  | bound {f : FunctionId} {method : Closure} {receiver : InstanceId}
      (hf : K.Binds h f method receiver) : Yields K h (.function f)

variable {K : Heap}

/-- A method is bound. -/
theorem gains_bindMethod (h : Heap) (method : Closure) (receiver : Value) :
    h.Gains (h.bindMethod method receiver).2 :=
  (h.gains_newFrame _).trans (gains_newFunction _ _)

theorem binds_bindMethod (hK : K.Gains h) {method : Closure} {receiver : InstanceId}
    (hmethod : ∃ c name, (K.cls c).methods.get? name = some method)
    (hreceiver : receiver < K.instances.size) :
    K.Binds (h.bindMethod method (.instance_ receiver)).2 h.functions.size method receiver where
  fresh := hK.functions
  made := by simp [bindMethod, bindReceiver, newFunction, newFrame]
  declared := hmethod
  lives := hreceiver
  bound := by
    refine ⟨h.frames.next, hK.frames, ?_, ?_, Frames.frame_push_next _ _⟩
    · exact Nat.lt_of_lt_of_eq (Nat.lt_succ_self _) (Frames.size_push _ _).symm
    · exact (function_newFunction _ _ _).trans (if_pos rfl)

end Heap

/-! ## Machines -/

/-- Only frames and functions were added to the heap of a machine, and nothing else has changed. -/
structure Machine.Gains (m m' : Machine) : Prop where
  heap : m.heap.Gains m'.heap
  chain : m'.chain = m.chain
  depth : m'.depth = m.depth
  locals : m'.locals = m.locals
  sink : m'.sink = m.sink
  clock : m'.clock = m.clock

theorem Machine.Gains.refl (m : Machine) : m.Gains m := ⟨.refl _, rfl, rfl, rfl, rfl, rfl⟩

theorem Machine.Gains.trans {m m' m'' : Machine} (h : m.Gains m') (h' : m'.Gains m'') :
    m.Gains m'' where
  heap := h.heap.trans h'.heap
  chain := h'.chain.trans h.chain
  depth := h'.depth.trans h.depth
  locals := h'.locals.trans h.locals
  sink := h'.sink.trans h.sink
  clock := h'.clock.trans h.clock

/-- What a step that only adds to the machine `m` gives. -/
inductive Gleans {α : Type} (R : Heap → α → Prop) (m : Machine) :
    EStateM.Result Halt Machine α → Prop
  | ok {a : α} {n : Machine} (hm : m.Gains n) (ha : R n.heap a) : Gleans R m (.ok a n)
  | error {halt : Halt} {n : Machine} (hm : m.Gains n) : Gleans R m (.error halt n)

/-- On each machine that has gained on `K`, a step only adds to the machine. -/
def Observes {α : Type} (K : Machine) (R : Heap → α → Prop) (p : Exec α) : Prop :=
  ∀ m, K.Gains m → Gleans R m (p m)

namespace Observes

open Exec

variable {α β : Type} {K : Machine} {R : Heap → α → Prop} {Q : Heap → β → Prop}

theorem pure {a : α} (ha : ∀ h, K.heap.Gains h → R h a) : Observes K R (pure a) :=
  fun m hm => .ok (.refl m) (ha m.heap hm.heap)

theorem fail {t : Token} {fault : RuntimeFault} : Observes K R (fail t fault) :=
  fun m _ => .error (.refl m)

theorem outOfFuel : Observes K R (throw .outOfFuel) := fun m _ => .error (.refl m)

theorem ofExcept {t : Token} {r : Except RuntimeFault α}
    (h : ∀ a, r = .ok a → ∀ h, K.heap.Gains h → R h a) : Observes K R (ofExcept t r) := by
  cases r with
  | ok a => exact pure (h a rfl)
  | error fault => exact fail

/-- A step that starts by looking at the machine. -/
theorem get_bind {f : Machine → Exec β} (h : ∀ m, K.Gains m → Observes K Q (f m)) :
    Observes K Q (get >>= f) := fun m hm => h m hm m hm

theorem bind {p : Exec α} {f : α → Exec β} (hp : Observes K R p)
    (hf : ∀ a n, K.Gains n → R n.heap a → Gleans Q n (f a n)) : Observes K Q (p >>= f) := by
  intro m hm
  have hresult := hp m hm
  simp only [Bind.bind, EStateM.bind]
  generalize p m = r at hresult
  cases hresult with
  | error hn => exact .error hn
  | @ok a n hn ha =>
    have hnext := hf a n (hm.trans hn) ha
    simp only
    generalize f a n = r at hnext
    cases hnext with
    | ok hn' hb => exact .ok (hn.trans hn') hb
    | error hn' => exact .error (hn.trans hn')

end Observes

section

open Exec

variable {K : Machine}

/-! ## Variables and members -/

theorem Frames.mem_of_frameAt {name : String} {chain : Chain} {d : Nat} {i : FrameId}
    (h : frameAt name chain d = .ok i) : i ∈ chain := by
  induction chain generalizing d with
  | nil => cases h
  | cons j outer ih =>
    cases d with
    | zero =>
      cases h
      exact List.mem_cons_self
    | succ d => exact List.mem_cons_of_mem _ (ih h)

/-- What is read in a frame at a distance was there before. -/
theorem Machine.Gains.has_getAt {m : Machine} (hm : K.Gains m) (hK : K.Closed) {d : Nat}
    {name : String} {v : Value} (hv : m.heap.frames.getAt m.chain d name = .ok v) :
    K.heap.Has v := by
  rw [hm.chain] at hv
  unfold Frames.getAt at hv
  cases hi : Frames.frameAt name K.chain d with
  | error fault =>
    rw [hi] at hv
    cases hv
  | ok i =>
    have hlt := hK.chain.lt_of_mem i (Frames.mem_of_frameAt hi)
    rw [hi] at hv
    simp only [Bind.bind, Except.bind, hm.heap.frame i hlt] at hv
    split at hv
    · next hw =>
      cases hv
      exact hK.heap.bound i v (Table.mem_values_of_get? hw)
    · cases hv

theorem Machine.Gains.has_get_global {m : Machine} (hm : K.Gains m) (hK : K.Closed)
    {name : String} {v : Value} (hv : m.heap.frames.get name globalChain = .ok v) :
    K.heap.Has v := by
  simp only [globalChain, Frames.get, hm.heap.frame globalFrame hK.heap.size] at hv
  split at hv
  · next hw =>
    cases hv
    exact hK.heap.bound _ v (Table.mem_values_of_get? hw)
  · cases hv

theorem observes_lookUp (hK : K.Closed) {id : NodeId} {name : Token} :
    Observes K K.heap.Yields (lookUp id name) := by
  refine Observes.get_bind fun m hm => ?_
  cases m.locals[id]? with
  | none => exact Observes.ofExcept fun v hv _ _ => .old (hm.has_get_global hK hv)
  | some d => exact Observes.ofExcept fun v hv _ _ => .old (hm.has_getAt hK hv)

/-- Binding a method adds to the heap only. -/
theorem observes_getMember (hK : K.Closed) {start : ClassId} {i : InstanceId}
    (hi : i < K.heap.instances.size) {name : Token} :
    Observes K K.heap.Yields (getMember start i name) := by
  refine Observes.get_bind fun m hm => ?_
  cases hmember : m.heap.member? start i name.lexeme with
  | none => exact Observes.fail
  | some member =>
    cases member with
    | field v =>
      have hfield := Heap.get?_of_member? hmember
      rw [hm.heap.inst] at hfield
      exact Observes.pure fun _ _ => .old (hK.heap.fields i v (Table.mem_values_of_get? hfield))
    | method k =>
      obtain ⟨c, hc⟩ := Heap.exists_of_member? hmember
      rw [hm.heap.cls] at hc
      intro n hn
      exact .ok (n := { n with heap := (n.heap.bindMethod k (.instance_ i)).2 })
        ⟨n.heap.gains_bindMethod k _, rfl, rfl, rfl, rfl, rfl⟩
        (.bound (Heap.binds_bindMethod hn.heap ⟨c, _, hc⟩ hi))

theorem observes_getProperty (hK : K.Closed) {h : Heap} {object : Value}
    (hobject : K.heap.Yields h object) {name : Token} :
    Observes K K.heap.Yields (getProperty object name) := by
  refine Observes.get_bind fun m hm => ?_
  cases object with
  | instance_ i =>
    cases hobject with
    | old hi => exact observes_getMember hK hi
  | class_ c =>
    simp only
    cases hv : m.heap.classField? c name.lexeme with
    | none => exact Observes.fail
    | some v =>
      obtain ⟨d, -, hd⟩ := List.exists_of_findSome?_eq_some hv
      rw [hm.heap.cls] at hd
      exact Observes.pure fun _ _ => .old (hK.heap.statics d v (Table.mem_values_of_get? hd))
  | _ => exact Observes.fail

theorem observes_superMember (hK : K.Closed) {id : NodeId} {keyword method : Token} :
    Observes K K.heap.Yields (superMember id keyword method) := by
  refine Observes.get_bind fun m hm => ?_
  match m.locals[id]? with
  | none | some 0 => exact Observes.fail
  | some (d + 1) =>
    refine Observes.bind (R := fun _ _ => True) (Observes.ofExcept fun _ _ _ _ => trivial)
      fun superclass n hn _ => ?_
    refine Observes.bind (R := fun _ => K.heap.Has)
      (Observes.ofExcept fun v hv _ _ => hm.has_getAt hK hv) (fun receiver n hn hreceiver => ?_) n hn
    cases superclass with
    | class_ c =>
      cases receiver with
      | instance_ i => exact observes_getMember hK hreceiver n hn
      | _ => exact Observes.fail n hn
    | _ => exact Observes.fail n hn

/-! ## Expressions -/

/-- An expression without effects only adds frames and functions to a machine, and its value was
there before or is a method that was bound. -/
theorem observes_evaluate (hK : K.Closed) (fuel : Nat) {e : Expr} (he : e.EffectFree) :
    Observes K K.heap.Yields (evaluate fuel e) := by
  induction fuel generalizing e with
  | zero => exact Observes.outOfFuel
  | succ fuel ih =>
    cases e with
    | literal l =>
      exact Observes.pure fun _ _ => .old (Heap.has_of_not_isReference l.isReference_value)
    | grouping inner => exact ih (e := inner) he
    | unary op operand =>
      refine Observes.bind (ih (e := operand) he) fun _ n hn _ => ?_
      exact Observes.ofExcept (fun _ hr _ _ =>
        .old (Heap.has_of_not_isReference (applyUnary_isReference hr))) n hn
    | binary left op right =>
      refine Observes.bind (ih he.1) fun _ n hn _ => Observes.bind (ih he.2) (fun _ n hn _ => ?_) n hn
      exact Observes.ofExcept (fun _ hr _ _ =>
        .old (Heap.has_of_not_isReference (applyBinary_isReference hr))) n hn
    | logical left op right =>
      refine Observes.bind (ih he.1) fun a n hn ha => ?_
      cases shortCircuits op a with
      | true => exact .ok (.refl n) ha
      | false => exact ih he.2 n hn
    | conditional c a b =>
      refine Observes.bind (ih he.1) fun v n hn _ => ?_
      cases v.isTruthy with
      | true => exact ih he.2.1 n hn
      | false => exact ih he.2.2 n hn
    | var id name => exact observes_lookUp hK
    | get object name =>
      exact Observes.bind (ih (e := object) he) fun _ n hn hv => observes_getProperty hK hv n hn
    | thisRef id keyword => exact observes_lookUp hK
    | superRef id keyword method => exact observes_superMember hK
    | assign | call | set => exact he.elim

end

end Lox
