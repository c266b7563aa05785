import Lox.Machine.Evaluation

/-!
# What running code leaves as it is

Something that holds of a machine is kept by a step if it holds of the machine that the step
leaves, whether or not the step halts. Steps one after the other keep what each of them keeps.

Most parts of the evaluator change no more of a machine than its frames and instances, of which they
take none away, the fields of its classes, its sink and its clock, or add a function that is a method
of a class with a receiver. What survives these changes is stable. A stable property is kept by an
expression if calls keep it, and by a statement if its branches do and what it declares may be added
to the heap.
-/

namespace Lox

variable {start : ClassId} {i : InstanceId}

namespace Exec

variable {α β : Type} {P : Machine → Prop} {m : Machine}

theorem get_bind_apply (f : Machine → Exec α) (m : Machine) : (get >>= f) m = f m m := rfl

theorem withHeap_bind_apply (f : Heap → α × Heap) (g : α → Exec β) (m : Machine) :
    (withHeap f >>= g) m = g (f m.heap).1 { m with heap := (f m.heap).2 } := rfl

/-- The machine that a step leaves, whether or not it halts. -/
def after (p : Exec α) (m : Machine) : Machine :=
  match p m with
  | .ok _ m' => m'
  | .error _ m' => m'

theorem after_bind (p : Exec α) (f : α → Exec β) (m : Machine) :
    (p >>= f).after m =
      match p m with
      | .ok a m' => (f a).after m'
      | .error _ m' => m' := by
  simp only [after, bind, EStateM.bind]
  cases p m <;> rfl

theorem after_map (p : Exec α) (f : α → β) (m : Machine) : (f <$> p).after m = p.after m := by
  simp only [after, Functor.map, EStateM.map]
  cases p m <;> rfl

/-- A step leaves a machine with the property if it starts on one. -/
def Keeps (P : Machine → Prop) (p : Exec α) : Prop := ∀ m, P m → P (p.after m)

theorem Keeps.of_ok {p : Exec α} (hp : Keeps P p) (hm : P m) {a : α} {m' : Machine}
    (h : p m = .ok a m') : P m' := by
  have hafter := hp m hm
  rwa [after, h] at hafter

theorem keeps_pure (a : α) : Keeps P (pure a) := fun _ hm => hm

theorem keeps_fail (t : Token) (fault : RuntimeFault) : Keeps P (fail t fault : Exec α) :=
  fun _ hm => hm

theorem keeps_ofExcept (t : Token) (r : Except RuntimeFault α) : Keeps P (ofExcept t r) := by
  cases r with
  | ok a => exact keeps_pure a
  | error fault => exact keeps_fail t fault

/-- What holds behind a step and is kept by what follows it holds behind both. -/
theorem Keeps.after_bind {p : Exec α} {f : α → Exec β} (hf : ∀ a, Keeps P (f a))
    (h : P (p.after m)) : P ((p >>= f).after m) := by
  rw [Exec.after_bind]
  rw [after] at h
  cases hp : p m with
  | ok a m' =>
    rw [hp] at h
    exact hf a m' h
  | error halt m' =>
    rw [hp] at h
    exact h

theorem Keeps.bind {p : Exec α} {f : α → Exec β} (hp : Keeps P p) (hf : ∀ a, Keeps P (f a)) :
    Keeps P (p >>= f) := fun m hm => Keeps.after_bind hf (hp m hm)

/-- A step that starts by looking at the machine. -/
theorem keeps_get_bind {f : Machine → Exec α} (h : ∀ m, P m → P ((f m).after m)) :
    Keeps P (get >>= f) := h

end Exec

open Exec

variable {α : Type} {P : Machine → Prop} {eval : Expr → Exec Value} {exec : Stmt → Exec Completion}
  {fuel : Nat}

/-- A property does not depend on the frames and instances, as long as there are no fewer, on the
fields of classes, the sink and the clock, and a method may be given a receiver. -/
structure Machine.Stable (P : Machine → Prop) : Prop where
  frames : ∀ m (frames : Frames), m.heap.frames.size ≤ frames.size → P m →
    P { m with heap := { m.heap with frames := frames } }
  instances : ∀ m (instances : Array Instance), m.heap.instances.size ≤ instances.size → P m →
    P { m with heap := { m.heap with instances := instances } }
  classField : ∀ m c name v, P m → P { m with heap := m.heap.setClassField c name v }
  sink : ∀ m sink, P m → P { m with sink := sink }
  clock : ∀ m clock, P m → P { m with clock := clock }
  bound : ∀ m id name method chain, (m.heap.cls id).methods.get? name = some method → P m →
    P { m with heap := (m.heap.newFunction { method with chain := chain }).2 }

theorem Frames.size_le_push (fs : Frames) (f : Frame) : fs.size ≤ (fs.push f).size :=
  Nat.le_of_lt (Nat.lt_of_lt_of_eq (Nat.lt_succ_self _) (size_push fs f).symm)

/-- A function may be added to the heap. -/
def Closure.Addable (P : Machine → Prop) (c : Closure) : Prop :=
  ∀ m, P m → P { m with heap := (m.heap.newFunction c).2 }

namespace Heap

variable {h : Heap} {c : Closure} {name : String}

/-- A method that is looked for in some classes is a method of one of them. -/
theorem exists_of_findMethod? {classes : List ClassId}
    (hc : h.findMethod? classes name = some c) :
    ∃ id, (h.cls id).methods.get? name = some c := by
  obtain ⟨id, -, hid⟩ := List.exists_of_findSome?_eq_some hc
  exact ⟨id, hid⟩

theorem exists_of_member? (hc : h.member? start i name = some (.method c)) :
    ∃ id, (h.cls id).methods.get? name = some c := by
  unfold member? at hc
  split at hc
  · cases hc
  · obtain ⟨c', hc', heq⟩ := Option.map_eq_some_iff.1 hc
    cases heq
    exact exists_of_findMethod? hc'

/-- The field of an instance that its members include. -/
theorem get?_of_member? {v : Value} (hv : h.member? start i name = some (.field v)) :
    (h.inst i).fields.get? name = some v := by
  unfold member? at hv
  split at hv
  · cases hv
    assumption
  · obtain ⟨_, _, heq⟩ := Option.map_eq_some_iff.1 hv
    cases heq

end Heap

namespace Machine.Stable

/-! ## Variables and members -/

theorem keeps_newFrame (hP : Stable P) (frame : Frame) :
    Keeps P (withHeap fun h => h.newFrame frame) :=
  fun m hm => hP.frames m _ (Frames.size_le_push _ _) hm

theorem keeps_defineIn (hP : Stable P) (id : FrameId) (name : String) (v : Value) :
    Keeps P (defineIn id name v) :=
  fun m hm => hP.frames m _ (Nat.le_of_eq (Frames.size_define _ _ _ _).symm) hm

theorem keeps_define (hP : Stable P) (name : String) (v : Value) : Keeps P (define name v) := by
  refine keeps_get_bind fun m hm => ?_
  cases m.chain with
  | nil => exact hm
  | cons id outer => exact hP.keeps_defineIn id name v m hm

theorem keeps_assign (hP : Stable P) (chain : Chain) (name : Token) (v : Value) :
    Keeps P (assign chain name v) :=
  keeps_get_bind fun m hm =>
    (keeps_ofExcept name _).bind (fun id => hP.keeps_defineIn id name.lexeme v) m hm

theorem keeps_assignAt (hP : Stable P) (distance : Nat) (name : Token) (v : Value) :
    Keeps P (assignAt distance name v) :=
  keeps_get_bind fun m hm =>
    (keeps_ofExcept name _).bind (fun id => hP.keeps_defineIn id name.lexeme v) m hm

theorem keeps_writeLine (hP : Stable P) (v : Value) : Keeps P (writeLine v) := by
  intro m hm
  simp only [after, writeLine]
  cases hline : m.sink.writeLine (m.heap.text v) with
  | mk fault sink => cases fault <;> exact hP.sink m sink hm

theorem keeps_readClock (hP : Stable P) : Keeps P readClock := fun m hm => hP.clock m _ hm

theorem keeps_lookUp (id : NodeId) (name : Token) : Keeps P (lookUp id name) := by
  refine keeps_get_bind fun m hm => ?_
  cases m.locals[id]? with
  | some distance => exact keeps_ofExcept name _ m hm
  | none => exact keeps_ofExcept name _ m hm

theorem keeps_overwrite (hP : Stable P) (id : NodeId) (name : Token) (v : Value) :
    Keeps P (overwrite id name v) := by
  refine keeps_get_bind fun m hm => ?_
  cases m.locals[id]? with
  | some distance => exact hP.keeps_assignAt distance name v m hm
  | none => exact hP.keeps_assign globalChain name v m hm

theorem keeps_readMember (hP : Stable P) {m : Machine} {name : String} {member : Member}
    (h : m.heap.member? start i name = some member) (hm : P m) :
    P ((readMember i member).after m) := by
  cases member with
  | field v => exact hm
  | method c =>
    obtain ⟨id, hid⟩ := Heap.exists_of_member? h
    let frames := m.heap.frames.push ((∅ : Frame).insert "this" (.instance_ i))
    have hframe := hP.frames m frames (Frames.size_le_push _ _) hm
    exact hP.bound { m with heap := { m.heap with frames := frames } } id name c
      (m.heap.frames.next :: c.chain) hid hframe

theorem keeps_getMember (hP : Stable P) (start : ClassId) (i : InstanceId) (name : Token) :
    Keeps P (getMember start i name) := by
  refine keeps_get_bind fun m hm => ?_
  cases h : m.heap.member? start i name.lexeme with
  | none => exact hm
  | some member => exact hP.keeps_readMember h hm

theorem keeps_getProperty (hP : Stable P) (object : Value) (name : Token) :
    Keeps P (getProperty object name) := by
  refine keeps_get_bind fun m hm => ?_
  cases object with
  | instance_ i => exact hP.keeps_getMember _ i name m hm
  | class_ c =>
    simp only
    cases m.heap.classField? c name.lexeme <;> exact hm
  | _ => exact hm

theorem keeps_setProperty (hP : Stable P) (object : Value) (name : Token) {value : Exec Value}
    (hvalue : Keeps P value) : Keeps P (setProperty object name value) := by
  cases object with
  | instance_ i =>
    refine hvalue.bind fun v m hm => hP.instances m _ ?_ hm
    exact Nat.le_of_eq Array.size_modify.symm
  | class_ c => exact hvalue.bind fun v m hm => hP.classField m c name.lexeme v hm
  | _ => exact keeps_fail name _

theorem keeps_superMember (hP : Stable P) (id : NodeId) (keyword method : Token) :
    Keeps P (superMember id keyword method) := by
  refine keeps_get_bind fun m hm => ?_
  match m.locals[id]? with
  | none | some 0 => exact hm
  | some (distance + 1) =>
    refine Keeps.bind (keeps_ofExcept keyword _) (fun superclass => Keeps.bind
      (keeps_ofExcept keyword _) fun receiver => ?_) m hm
    split
    · exact hP.keeps_getMember _ _ method
    · exact keeps_fail keyword _

/-! ## Calls and declarations -/

theorem keeps_evaluateAll {es : List Expr} (heval : ∀ e ∈ es, Keeps P (eval e)) :
    Keeps P (evaluateAll eval es) := by
  induction es with
  | nil => exact keeps_pure []
  | cons e es ih =>
    obtain ⟨he, hes⟩ := List.forall_mem_cons.1 heval
    exact he.bind fun v => (ih hes).bind fun vs => keeps_pure (v :: vs)

theorem keeps_executeAll {ss : List Stmt} (hexec : ∀ s ∈ ss, Keeps P (exec s)) :
    Keeps P (executeAll exec ss) := by
  induction ss with
  | nil => exact keeps_pure _
  | cons s ss ih =>
    obtain ⟨hs, hss⟩ := List.forall_mem_cons.1 hexec
    refine hs.bind fun completion => ?_
    cases completion with
    | normal => exact ih hss
    | returned v => exact keeps_pure _

/-- What holds behind the body of a closure holds behind the closure. -/
theorem after_runClosure {c : Closure} {arguments : List Value} {m : Machine}
    (h : P ((executeInFrame exec (callFrame c.decl.params arguments) c.chain
      c.decl.body).after m)) : P ((runClosure exec c arguments).after m) := by
  refine Keeps.after_bind (fun completion => ?_) h
  split
  · exact keeps_get_bind fun m hm => keeps_ofExcept c.decl.name _ m hm
  · cases completion <;> exact keeps_pure _

/-- A closure is run if its body may be run in a frame of its own. -/
theorem keeps_runClosure {c : Closure}
    (hbody : ∀ frame, Keeps P (executeInFrame exec frame c.chain c.decl.body))
    (arguments : List Value) : Keeps P (runClosure exec c arguments) :=
  fun m hm => after_runClosure (hbody _ m hm)

/-- What holds once an instance is made holds behind its initializer, if that keeps it. -/
theorem after_construct (hP : Stable P) {c : ClassId} {arguments : List Value} {m : Machine}
    (hinit : ∀ init chain, m.heap.initializer? c = some init →
      Keeps P (runClosure exec { init with chain := chain } arguments))
    (hmade : P { m with heap := (m.heap.newInstance c).2 }) :
    P ((construct exec c arguments).after m) := by
  have hsame : (m.heap.newInstance c).2.initializer? c = m.heap.initializer? c := rfl
  rw [after, construct, withHeap_bind_apply, get_bind_apply]
  simp only [hsame]
  cases h : m.heap.initializer? c with
  | none => exact hmade
  | some init =>
    exact (hinit init _ h).bind (fun _ => keeps_pure _) _
      (hP.frames _ _ (Frames.size_le_push _ _) hmade)

theorem keeps_newInstance (hP : Stable P) (c : ClassId) :
    Keeps P (withHeap fun h => h.newInstance c) :=
  fun m hm => hP.instances m _ (Nat.le_of_lt (by simp)) hm

theorem keeps_staticTable {chain : Chain} {ds : List FunctionDecl} (fields : Table Value)
    (hds : ∀ d ∈ ds, Closure.Addable P ⟨d, chain, false⟩) :
    Keeps P (staticTable chain ds fields) := by
  induction ds generalizing fields with
  | nil => exact keeps_pure fields
  | cons d ds ih =>
    obtain ⟨hd, hds⟩ := List.forall_mem_cons.1 hds
    have hnew : Keeps P (withHeap fun h => h.newFunction ⟨d, chain, false⟩) := hd
    exact hnew.bind fun f => ih _ hds

theorem keeps_methodChain (hP : Stable P) (superclass : Option ClassId) :
    Keeps P (methodChain superclass) := by
  refine keeps_get_bind fun m hm => ?_
  cases superclass with
  | none => exact hm
  | some c => exact hP.frames m _ (Frames.size_le_push _ _) hm

theorem keeps_superclassOf (heval : ∀ e, Keeps P (eval e)) (name : Token) (o : Option Expr) :
    Keeps P (superclassOf eval name o) := by
  cases o with
  | none => exact keeps_pure none
  | some e =>
    refine (heval e).bind fun v => ?_
    cases v with
    | class_ c => exact keeps_pure _
    | _ => exact keeps_fail _ _

theorem keeps_declareClass (hP : Stable P) (heval : ∀ e, Keeps P (eval e)) {decl : ClassDecl}
    (hstatics : ∀ d ∈ decl.statics, ∀ chain, Closure.Addable P ⟨d, chain, false⟩)
    (hmethods : ∀ m (c : ClassObject) chain, c.methods = methodTable chain decl.methods → P m →
      P { m with heap := (m.heap.newClass c).2 }) : Keeps P (declareClass eval decl) := by
  refine (keeps_superclassOf heval _ _).bind fun superclass => (hP.keeps_define _ _).bind fun _ =>
    (hP.keeps_methodChain superclass).bind fun chain =>
      (keeps_staticTable ∅ fun d hd => hstatics d hd chain).bind fun fields => ?_
  have hnew : Keeps P (withHeap fun h => h.newClass
      { name := decl.name.lexeme
        ancestors := (superclass.map h.lineage).getD []
        methods := methodTable chain decl.methods
        fields := fields }) := fun m hm => hmethods m _ chain rfl hm
  exact hnew.bind fun c => keeps_get_bind fun m hm => hP.keeps_assign m.chain decl.name _ m hm

end Machine.Stable

open Machine.Stable

/-! ## One round of the evaluator -/

/-- An expression keeps what is stable if the expressions inside it and calls do. -/
theorem keeps_evaluate_succ (hP : Machine.Stable P) (heval : ∀ e, Keeps P (evaluate fuel e))
    (hcall : ∀ f paren vs, Keeps P (callValue (execute fuel) f paren vs)) (e : Expr) :
    Keeps P (evaluate (fuel + 1) e) := by
  cases e with
  | literal l => exact keeps_pure _
  | grouping inner => exact heval inner
  | unary op operand => exact (heval operand).bind fun v => keeps_ofExcept op _
  | binary left op right =>
    exact (heval left).bind fun a => (heval right).bind fun b => keeps_ofExcept op _
  | logical left op right =>
    refine (heval left).bind fun a => ?_
    split
    · exact keeps_pure a
    · exact heval right
  | conditional c a b =>
    refine (heval c).bind fun v => ?_
    split
    · exact heval a
    · exact heval b
  | var id name => exact keeps_lookUp id name
  | assign id name value =>
    exact (heval value).bind fun v => (hP.keeps_overwrite id name v).bind fun _ => keeps_pure v
  | call callee paren arguments =>
    exact (heval callee).bind fun f => (keeps_evaluateAll fun e _ => heval e).bind fun vs =>
      hcall f paren vs
  | get object name => exact (heval object).bind fun v => hP.keeps_getProperty v name
  | set object name value =>
    exact (heval object).bind fun v => hP.keeps_setProperty v name (heval value)
  | thisRef id keyword => exact keeps_lookUp id keyword
  | superRef id keyword method => exact hP.keeps_superMember id keyword method

/-- The statements that a statement may execute in the same frame. A loop executes itself again. -/
def Stmt.branches : Stmt → List Stmt
  | .ifThen _ a => [a]
  | .ifElse _ a b => [a, b]
  | .whileLoop c body => [body, .whileLoop c body]
  | _ => []

/-- A statement keeps what is stable if its expressions and branches do, and a block or declaration
if it does itself. -/
theorem keeps_execute_succ (hP : Machine.Stable P) (heval : ∀ e, Keeps P (evaluate fuel e))
    {s : Stmt} (hbranches : ∀ a ∈ s.branches, Keeps P (execute fuel a))
    (hblock : ∀ body chain, s = .block body → Keeps P (executeInFrame (execute fuel) ∅ chain body))
    (hfunction : ∀ decl chain, s = .funDecl decl → Closure.Addable P ⟨decl, chain, false⟩)
    (hclass : ∀ decl, s = .classDecl decl → Keeps P (declareClass (evaluate fuel) decl)) :
    Keeps P (execute (fuel + 1) s) := by
  cases s with
  | expression e => exact (heval e).bind fun _ => keeps_pure _
  | print e => exact (heval e).bind fun v => (hP.keeps_writeLine v).bind fun _ => keeps_pure _
  | varDecl name value =>
    cases value with
    | none => exact (hP.keeps_define _ _).bind fun _ => keeps_pure _
    | some e => exact (heval e).bind fun v => (hP.keeps_define _ _).bind fun _ => keeps_pure _
  | block body => exact keeps_get_bind fun m hm => hblock body m.chain rfl m hm
  | ifThen c a =>
    refine (heval c).bind fun v => ?_
    split
    · exact hbranches a (by simp [Stmt.branches])
    · exact keeps_pure _
  | ifElse c a b =>
    refine (heval c).bind fun v => ?_
    split
    · exact hbranches a (by simp [Stmt.branches])
    · exact hbranches b (by simp [Stmt.branches])
  | whileLoop c body =>
    refine (heval c).bind fun v => ?_
    split
    · refine (hbranches body (by simp [Stmt.branches])).bind fun completion => ?_
      cases completion with
      | returned v => exact keeps_pure _
      | normal => exact hbranches _ (by simp [Stmt.branches])
    · exact keeps_pure _
  | funDecl decl =>
    refine keeps_get_bind fun m hm => ?_
    have hnew : Keeps P (withHeap fun h => h.newFunction ⟨decl, m.chain, false⟩) :=
      hfunction decl m.chain rfl
    exact hnew.bind (fun f => (hP.keeps_define _ _).bind fun _ => keeps_pure _) m hm
  | returnWith keyword value =>
    cases value with
    | none => exact keeps_pure _
    | some e => exact (heval e).bind fun v => keeps_pure _
  | classDecl decl => exact (hclass decl rfl).bind fun _ => keeps_pure _

end Lox
