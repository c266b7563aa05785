import Lox.Proofs.Machine.Invariant
import Lox.Proofs.Syntax.Likeness

/-!
# Programs that are alike do the same

Two machines that run programs that are alike stay alike: their frames hold the same values, under
the new name where a frame belongs to a flagged scope, and their functions are alike. A frame is
marked if it was made for a flagged scope, so the flags of the scopes around code are the marks of
the frames that the code sees. Frames that are made get their marks then. Faults are on lines that
correspond to each other.

A variable that is not where it should be would be reported by its name. So the two programs do the
same unless the first one stops with such a fault, which no program with bound names does.
-/

namespace Lox

open Exec

variable {chain : Chain} {flags : List Bool} {i : FrameId} {flag : Bool} {x : String}

/-! ## Heaps -/

abbrev Marks := FrameId → Bool

/-- The flags around code are the marks of the frames that the code sees. -/
def Marks.Fit (marks : Marks) (chain : Chain) (flags : List Bool) : Prop :=
  ∀ d i, chain[d]? = some i → marks i = flags.getD d false

/-- Frames that hold the same, under the new name if the scope is flagged. -/
def Frame.Alike (r : Likeness) (flag : Bool) (frame frame' : Frame) : Prop :=
  ∀ x, (flag = true → x ≠ r.new) → frame'.get? (r.name flag x) = frame.get? x

/-- Functions that are alike. Their chains see frames that there are, and `front` has the flags of
scopes for which there are no frames yet. -/
structure Closure.Alike (r : Likeness) (marks : Marks) (size : Nat) (front : List Bool)
    (c c' : Closure) : Prop where
  chain : c'.chain = c.chain
  bounded : ∀ i ∈ c.chain, i < size
  isInitializer : c'.isInitializer = c.isInitializer
  decl : ∃ flags, marks.Fit c.chain flags ∧ c.decl.Alike r (front ++ flags) c'.decl

/-- Classes that are alike. The receivers of their methods are not there yet. -/
structure ClassObject.Alike (r : Likeness) (marks : Marks) (size : Nat) (c c' : ClassObject) :
    Prop where
  name : c'.name = c.name
  ancestors : c'.ancestors = c.ancestors
  fields : c'.fields = c.fields
  methods : ∀ x, Option.Rel (Closure.Alike r marks size [false]) (c.methods.get? x)
    (c'.methods.get? x)

/-- Heaps that are alike. -/
structure Heap.Alike (r : Likeness) (marks : Marks) (h h' : Heap) : Prop where
  frames_size : h'.frames.size = h.frames.size
  frames : ∀ i, (h.frames.frame i).Alike r (marks i) (h'.frames.frame i)
  globals : marks globalFrame = false
  functions_size : h'.functions.size = h.functions.size
  functions : ∀ f, (h.function f).Alike r marks h.frames.size [] (h'.function f)
  classes_size : h'.classes.size = h.classes.size
  classes : ∀ c, (h.cls c).Alike r marks h.frames.size (h'.cls c)
  instances : h'.instances = h.instances

/-- Marks that go on to be the same for the frames that there were. -/
def Marks.Extends (marks marks' : Marks) (size : Nat) : Prop := ∀ i < size, marks' i = marks i

def Marks.add (marks : Marks) (size : Nat) (flag : Bool) : Marks :=
  fun i => if i = size then flag else marks i

/-- A frame keeps the names it has. -/
structure Frames.Grows (fs fs' : Frames) : Prop where
  size : fs.size ≤ fs'.size
  contains : ∀ i < fs.size, ∀ x, (fs.frame i).contains x = true → (fs'.frame i).contains x = true

section

variable {r : Likeness} {marks marks' : Marks} {size size' : Nat} {h h' : Heap}

theorem Marks.extends_add (marks : Marks) (size : Nat) (flag : Bool) :
    marks.Extends (marks.add size flag) size := by
  intro i hi
  simp [Marks.add, Nat.ne_of_lt hi]

theorem Marks.Fit.extend (hfit : marks.Fit chain flags) (hbounded : ∀ i ∈ chain, i < size)
    (hext : marks.Extends marks' size) : marks'.Fit chain flags := by
  intro d i hi
  rw [hext i (hbounded i (List.mem_of_getElem? hi))]
  exact hfit d i hi

/-- A frame with a mark in front of a chain. -/
theorem Marks.Fit.cons (hfit : marks.Fit chain flags) (hi : marks i = flag) :
    marks.Fit (i :: chain) (flag :: flags) := by
  intro d j hj
  cases d with
  | zero =>
    obtain rfl := Option.some.inj hj
    exact hi
  | succ d => exact hfit d j hj

/-- The mark of the innermost frame. -/
theorem Marks.Fit.head (hfit : marks.Fit (i :: chain) flags) : marks i = flags.headD false := by
  have hmark := hfit 0 i rfl
  cases flags with
  | nil => exact hmark
  | cons b flags => exact hmark

theorem Closure.Alike.mono {front : List Bool} {c c' : Closure}
    (hc : c.Alike r marks size front c') (hext : marks.Extends marks' size)
    (hsize : size ≤ size') : c.Alike r marks' size' front c' where
  chain := hc.chain
  bounded i hi := Nat.lt_of_lt_of_le (hc.bounded i hi) hsize
  isInitializer := hc.isInitializer
  decl := by
    obtain ⟨flags, hfit, hdecl⟩ := hc.decl
    exact ⟨flags, hfit.extend hc.bounded hext, hdecl⟩

theorem Closure.rel_imp {R R' : Closure → Closure → Prop} {o o' : Option Closure}
    (ho : Option.Rel R o o') (himp : ∀ c c', R c c' → R' c c') : Option.Rel R' o o' := by
  cases ho with
  | none => exact .none
  | some hc => exact .some (himp _ _ hc)

theorem ClassObject.Alike.mono {c c' : ClassObject} (hc : c.Alike r marks size c')
    (hext : marks.Extends marks' size) (hsize : size ≤ size') : c.Alike r marks' size' c' where
  name := hc.name
  ancestors := hc.ancestors
  fields := hc.fields
  methods x := Closure.rel_imp (hc.methods x) fun _ _ hm => hm.mono hext hsize

/-- More nodes correspond to each other. -/
theorem Closure.Alike.withSame {same : NodeId → NodeId → Option Nat → Prop} {front : List Bool}
    {c c' : Closure} (hc : c.Alike r marks size front c')
    (hsame : ∀ i j d, r.same i j d → same i j d) :
    c.Alike (r.withSame same) marks size front c' where
  chain := hc.chain
  bounded := hc.bounded
  isInitializer := hc.isInitializer
  decl := by
    obtain ⟨flags, hfit, hdecl⟩ := hc.decl
    exact ⟨flags, hfit, hdecl.mono hsame⟩

theorem Heap.Alike.withSame {same : NodeId → NodeId → Option Nat → Prop} (hh : h.Alike r marks h')
    (hsame : ∀ i j d, r.same i j d → same i j d) : h.Alike (r.withSame same) marks h' where
  frames_size := hh.frames_size
  frames := hh.frames
  globals := hh.globals
  functions_size := hh.functions_size
  functions f := (hh.functions f).withSame hsame
  classes_size := hh.classes_size
  classes c := by
    obtain ⟨hname, hancestors, hfields, hmethods⟩ := hh.classes c
    exact ⟨hname, hancestors, hfields,
      fun x => Closure.rel_imp (hmethods x) fun _ _ hm => hm.withSame hsame⟩
  instances := hh.instances

theorem Frames.Grows.refl (fs : Frames) : fs.Grows fs := ⟨Nat.le_refl _, fun _ _ _ h => h⟩

theorem Frames.Grows.trans {fs fs' fs'' : Frames} (h : fs.Grows fs') (h' : fs'.Grows fs'') :
    fs.Grows fs'' where
  size := Nat.le_trans h.size h'.size
  contains i hi x hx :=
    h'.contains i (Nat.lt_of_lt_of_le hi h.size) x (h.contains i hi x hx)

theorem Frames.grows_push (fs : Frames) (frame : Frame) : fs.Grows (fs.push frame) where
  size := by simp
  contains i hi x hx := by rwa [frame_push_of_lt frame hi]

theorem Frames.grows_define {fs : Frames} (name : String) (v : Value) (hi : i < fs.size) :
    fs.Grows (fs.define i name v) where
  size := by simp
  contains j _ x hx := by
    rw [Table.contains, get?_define name x v hi]
    split
    · rfl
    · exact hx

theorem Frames.frame_push_of_ne {fs : Frames} (frame : Frame) (hi : i ≠ fs.size) :
    (fs.push frame).frame i = fs.frame i := by
  have hi' : i ≠ fs.cells.size := hi
  simp [Frames.frame, Frames.push, Array.getD_eq_getD_getElem?, Array.getElem?_push, hi']

theorem Frame.Alike.empty (flag : Bool) : Frame.Alike r flag ∅ ∅ := fun _ _ => rfl

theorem Frame.Alike.insert {frame frame' : Frame} (hf : frame.Alike r flag frame')
    (hx : flag = true → x ≠ r.new) (v : Value) :
    Frame.Alike r flag (frame.insert x v) (frame'.insert (r.name flag x) v) := by
  intro y hy
  rw [Table.get?_insert, Table.get?_insert]
  by_cases heq : y = x
  · simp [heq]
  · rw [if_neg heq, if_neg fun h => heq (NameChange.name_inj hy hx h)]
    exact hf y hy

/-- A name that is not replaced. -/
theorem Frame.Alike.get?_of_ne {frame frame' : Frame} (hf : frame.Alike r flag frame')
    (hold : flag = true → x ≠ r.old) (hnew : flag = true → x ≠ r.new) :
    frame'.get? x = frame.get? x := by
  have hx := hf x hnew
  rwa [NameChange.name_of_ne hold] at hx

namespace Heap.Alike

/-- A heap whose frames and functions are new in part. -/
theorem change (hh : h.Alike r marks h') {k k' : Heap} (hext : marks.Extends marks' h.frames.size)
    (hgrows : h.frames.Grows k.frames) (hsize : k'.frames.size = k.frames.size)
    (hframes : ∀ i, (k.frames.frame i).Alike r (marks' i) (k'.frames.frame i))
    (hglobals : marks' globalFrame = false) (hfunctions : k.functions = h.functions)
    (hfunctions' : k'.functions = h'.functions) (hclasses : k.classes = h.classes)
    (hclasses' : k'.classes = h'.classes) (hinstances : k'.instances = k.instances) :
    k.Alike r marks' k' where
  frames_size := hsize
  frames := hframes
  globals := hglobals
  functions_size := by rw [hfunctions, hfunctions', hh.functions_size]
  functions f := by
    have hf := (hh.functions f).mono hext hgrows.size
    simpa only [Heap.function, hfunctions, hfunctions'] using hf
  classes_size := by rw [hclasses, hclasses', hh.classes_size]
  classes c := by
    have hc := (hh.classes c).mono hext hgrows.size
    simpa only [Heap.cls, hclasses, hclasses'] using hc
  instances := hinstances

/-- A frame with a mark is made. -/
theorem newFrame (hh : h.Alike r marks h') (hsize : 0 < h.frames.size) {frame frame' : Frame}
    (hframe : frame.Alike r flag frame') :
    (h.newFrame frame).2.Alike r (marks.add h.frames.size flag) (h'.newFrame frame').2 := by
  refine hh.change (Marks.extends_add _ _ _) (Frames.grows_push _ _) ?_ (fun i => ?_) ?_ rfl rfl rfl
    rfl hh.instances
  · simp [Heap.newFrame, hh.frames_size]
  · by_cases hi : i = h.frames.size
    · have hnew : (h.frames.push frame).frame i = frame := by
        rw [hi]
        exact Frames.frame_push_next _ _
      have hnew' : (h'.frames.push frame').frame i = frame' := by
        rw [hi, ← hh.frames_size]
        exact Frames.frame_push_next _ _
      rw [Heap.newFrame, Heap.newFrame, hnew, hnew', Marks.add, if_pos hi]
      exact hframe
    · rw [Heap.newFrame, Heap.newFrame, Frames.frame_push_of_ne _ hi,
        Frames.frame_push_of_ne _ (hh.frames_size ▸ hi), Marks.add, if_neg hi]
      exact hh.frames i
  · have hne : globalFrame ≠ h.frames.size := Nat.ne_of_lt hsize
    rw [Marks.add, if_neg hne]
    exact hh.globals

/-- A name is given a value in a frame. -/
theorem define (hh : h.Alike r marks h') (hi : i < h.frames.size) (hx : marks i = true → x ≠ r.new)
    (v : Value) : Heap.Alike r marks { h with frames := h.frames.define i x v }
      { h' with frames := h'.frames.define i (r.name (marks i) x) v } := by
  refine hh.change (fun _ _ => rfl) (Frames.grows_define x v hi) ?_ (fun j => ?_) hh.globals rfl rfl
    rfl rfl hh.instances
  · simp [hh.frames_size]
  · by_cases hj : j = i
    · subst hj
      rw [Frames.frame_define_self _ _ hi, Frames.frame_define_self _ _ (hh.frames_size ▸ hi)]
      exact (hh.frames j).insert hx v
    · rw [Frames.frame_define_of_ne _ _ hj, Frames.frame_define_of_ne _ _ hj]
      exact hh.frames j

/-- A function is made. -/
theorem newFunction (hh : h.Alike r marks h') {c c' : Closure}
    (hc : c.Alike r marks h.frames.size [] c') :
    (h.newFunction c).1 = (h'.newFunction c').1 ∧
      (h.newFunction c).2.Alike r marks (h'.newFunction c').2 := by
  refine ⟨hh.functions_size.symm, ⟨hh.frames_size, hh.frames, hh.globals, ?_, fun f => ?_,
    hh.classes_size, hh.classes, hh.instances⟩⟩
  · simp [Heap.newFunction, hh.functions_size]
  · by_cases hf : f = h.functions.size
    · have hnew : (h.newFunction c).2.function f = c := by
        simp [Heap.function, Heap.newFunction, hf, Array.getD]
      have hnew' : (h'.newFunction c').2.function f = c' := by
        simp [Heap.function, Heap.newFunction, hf, Array.getD, ← hh.functions_size]
      rw [hnew, hnew']
      exact hc
    · have hold : (h.newFunction c).2.function f = h.function f := by
        simp only [Heap.function, Heap.newFunction, Array.getD_eq_getD_getElem?]
        rw [Array.getElem?_push, if_neg hf]
      have hold' : (h'.newFunction c').2.function f = h'.function f := by
        simp only [Heap.function, Heap.newFunction, Array.getD_eq_getD_getElem?]
        rw [Array.getElem?_push, if_neg (hh.functions_size ▸ hf)]
      rw [hold, hold']
      exact hh.functions f

/-- A class is made. -/
theorem newClass (hh : h.Alike r marks h') {c c' : ClassObject}
    (hc : c.Alike r marks h.frames.size c') :
    (h.newClass c).1 = (h'.newClass c').1 ∧
      (h.newClass c).2.Alike r marks (h'.newClass c').2 := by
  refine ⟨hh.classes_size.symm, ⟨hh.frames_size, hh.frames, hh.globals, hh.functions_size,
    hh.functions, ?_, fun i => ?_, hh.instances⟩⟩
  · simp [Heap.newClass, hh.classes_size]
  · by_cases hi : i = h.classes.size
    · have hnew : (h.newClass c).2.cls i = c := by
        simp [Heap.cls, Heap.newClass, hi, Array.getD]
      have hnew' : (h'.newClass c').2.cls i = c' := by
        simp [Heap.cls, Heap.newClass, hi, Array.getD, ← hh.classes_size]
      rw [hnew, hnew']
      exact hc
    · have hold : (h.newClass c).2.cls i = h.cls i := by
        simp only [Heap.cls, Heap.newClass, Array.getD_eq_getD_getElem?]
        rw [Array.getElem?_push, if_neg hi]
      have hold' : (h'.newClass c').2.cls i = h'.cls i := by
        simp only [Heap.cls, Heap.newClass, Array.getD_eq_getD_getElem?]
        rw [Array.getElem?_push, if_neg (hh.classes_size ▸ hi)]
      rw [hold, hold']
      exact hh.classes i

theorem inst_eq (hh : h.Alike r marks h') (i : InstanceId) : h'.inst i = h.inst i := by
  rw [Heap.inst, Heap.inst, hh.instances]

theorem lineage_eq (hh : h.Alike r marks h') (c : ClassId) : h'.lineage c = h.lineage c := by
  rw [Heap.lineage, Heap.lineage, (hh.classes c).ancestors]

theorem classField?_eq (hh : h.Alike r marks h') (c : ClassId) (x : String) :
    h'.classField? c x = h.classField? c x := by
  simp only [Heap.classField?, hh.lineage_eq, (hh.classes _).fields]

theorem rel_findMethod? (hh : h.Alike r marks h') (classes : List ClassId) (x : String) :
    Option.Rel (Closure.Alike r marks h.frames.size [false]) (h.findMethod? classes x)
      (h'.findMethod? classes x) := by
  induction classes with
  | nil => exact .none
  | cons c classes ih =>
    have hc := (hh.classes c).methods x
    simp only [Heap.findMethod?, List.findSome?_cons] at ih ⊢
    generalize (h.cls c).methods.get? x = o at hc
    generalize (h'.cls c).methods.get? x = o' at hc
    cases hc with
    | none => exact ih
    | some hc => exact .some hc

theorem rel_initializer? (hh : h.Alike r marks h') (c : ClassId) :
    Option.Rel (Closure.Alike r marks h.frames.size [false]) (h.initializer? c)
      (h'.initializer? c) := by
  rw [Heap.initializer?, Heap.initializer?, hh.lineage_eq]
  exact hh.rel_findMethod? _ _

theorem text_eq (hh : h.Alike r marks h') (v : Value) : h'.text v = h.text v := by
  cases v with
  | function f =>
    obtain ⟨flags, -, hdecl⟩ := (hh.functions f).decl
    simp only [Heap.text, hdecl.lexeme_name]
  | class_ c => simp only [Heap.text, (hh.classes c).name]
  | instance_ i => simp only [Heap.text, hh.inst_eq, (hh.classes _).name]
  | bool b => cases b <;> rfl
  | _ => rfl

end Heap.Alike

/-- Members of instances that are alike. -/
inductive Member.Alike (r : Likeness) (marks : Marks) (size : Nat) : Member → Member → Prop
  | field {v : Value} : Member.Alike r marks size (.field v) (.field v)
  | method {c c' : Closure} : c.Alike r marks size [false] c' →
      Member.Alike r marks size (.method c) (.method c')

/-- What a call may run, alike. -/
inductive Callable.Alike (r : Likeness) (marks : Marks) (size : Nat) : Callable → Callable → Prop
  | closure {c c' : Closure} : c.Alike r marks size [] c' →
      Callable.Alike r marks size (.closure c) (.closure c')
  | native {f : Native} : Callable.Alike r marks size (.native f) (.native f)
  | constructor {c : ClassId} : Callable.Alike r marks size (.constructor c) (.constructor c)

theorem Heap.Alike.rel_member? (hh : h.Alike r marks h') (start : ClassId) (i : InstanceId)
    (x : String) : Option.Rel (Member.Alike r marks h.frames.size) (h.member? start i x)
      (h'.member? start i x) := by
  unfold Heap.member?
  rw [hh.inst_eq]
  cases (h.inst i).fields.get? x with
  | some v => exact .some .field
  | none =>
    have hm := hh.rel_findMethod? (h.lineage start) x
    rw [hh.lineage_eq]
    generalize h.findMethod? (h.lineage start) x = o at hm
    generalize h'.findMethod? (h.lineage start) x = o' at hm
    cases hm with
    | none => exact .none
    | some hm => exact .some (.method hm)

theorem Heap.Alike.rel_callable? (hh : h.Alike r marks h') (v : Value) :
    Option.Rel (Callable.Alike r marks h.frames.size) (h.callable? v) (h'.callable? v) := by
  cases v with
  | function f => exact .some (.closure (hh.functions f))
  | native f => exact .some .native
  | class_ c => exact .some .constructor
  | _ => exact .none

theorem Heap.Alike.arity_eq (hh : h.Alike r marks h') {f f' : Callable}
    (hf : f.Alike r marks h.frames.size f') : h'.arity f' = h.arity f := by
  cases hf with
  | closure hc =>
    obtain ⟨flags, -, hdecl⟩ := hc.decl
    exact hdecl.arity_eq
  | native => rfl
  | constructor =>
    rename_i c
    have hinit := hh.rel_initializer? c
    simp only [Heap.arity]
    generalize h.initializer? c = o at hinit
    generalize h'.initializer? c = o' at hinit
    cases hinit with
    | none => rfl
    | some hc =>
      obtain ⟨flags, -, hdecl⟩ := hc.decl
      exact hdecl.arity_eq

end

/-! ## Steps -/

/-- Machines that are alike. What is recorded for nodes that correspond to each other is known. -/
structure Machine.Alike (r : Likeness) (marks : Marks) (m m' : Machine) : Prop where
  heap : m.heap.Alike r marks m'.heap
  nonempty : 0 < m.heap.frames.size
  chain : m'.chain = m.chain
  bounded : ∀ i ∈ m.chain, i < m.heap.frames.size
  depth : m'.depth = m.depth
  sink : m'.sink = m.sink
  clock : m'.clock = m.clock
  locals : ∀ i j d, r.same i j d → m.locals[i]? = d ∧ m'.locals[j]? = d

/-- What becomes of machines that are alike. -/
structure Evolves (r : Likeness) (marks marks₁ : Marks) (m m' m₁ m₁' : Machine) : Prop where
  alike : m₁.Alike r marks₁ m₁'
  marks : marks.Extends marks₁ m.heap.frames.size
  frames : m.heap.frames.Grows m₁.heap.frames
  chain : m₁.chain = m.chain
  locals : m₁.locals = m.locals
  locals' : m₁'.locals = m'.locals

/-- Halts that are the same but for the lines of faults. -/
inductive Halt.Alike (r : Likeness) : Halt → Halt → Prop
  | fault {line line' : Nat} {fault : RuntimeFault} :
      r.line line line' → Halt.Alike r (.fault line fault) (.fault line' fault)
  | output {fault : OutputFault} : Halt.Alike r (.output fault) (.output fault)
  | outOfFuel : Halt.Alike r .outOfFuel .outOfFuel

/-- Two steps do the same on two machines, with results as `post` says, unless the first one stops
with a fault that no program with bound names meets. -/
inductive Agrees {α : Type} (r : Likeness) (marks : Marks) (m m' : Machine) (p p' : Exec α)
    (post : Marks → Machine → α → α → Prop) : Prop
  | misbound {line : Nat} {fault : RuntimeFault} {m₁ : Machine} :
      p m = .error (.fault line fault) m₁ → fault.isMisbinding = true →
        Agrees r marks m m' p p' post
  | ended {a a' : α} {m₁ m₁' : Machine} {marks₁ : Marks} : p m = .ok a m₁ → p' m' = .ok a' m₁' →
      Evolves r marks marks₁ m m' m₁ m₁' → post marks₁ m₁ a a' → Agrees r marks m m' p p' post
  | halted {halt halt' : Halt} {m₁ m₁' : Machine} {marks₁ : Marks} : p m = .error halt m₁ →
      p' m' = .error halt' m₁' → halt.Alike r halt' → Evolves r marks marks₁ m m' m₁ m₁' →
        Agrees r marks m m' p p' post

def Equal {α : Type} : Marks → Machine → α → α → Prop := fun _ _ a a' => a' = a

section

variable {r : Likeness} {marks marks₁ marks₂ : Marks} {m m' m₁ m₁' m₂ m₂' : Machine} {α β : Type}

theorem Evolves.refl (h : m.Alike r marks m') : Evolves r marks marks m m' m m' :=
  ⟨h, fun _ _ => rfl, .refl _, rfl, rfl, rfl⟩

theorem Evolves.trans (h : Evolves r marks marks₁ m m' m₁ m₁')
    (h' : Evolves r marks₁ marks₂ m₁ m₁' m₂ m₂') : Evolves r marks marks₂ m m' m₂ m₂' where
  alike := h'.alike
  marks i hi := (h'.marks i (Nat.lt_of_lt_of_le hi h.frames.size)).trans (h.marks i hi)
  frames := h.frames.trans h'.frames
  chain := h'.chain.trans h.chain
  locals := h'.locals.trans h.locals
  locals' := h'.locals'.trans h.locals'

/-- The flags around code go on to be the marks of the frames that it sees. -/
theorem Evolves.fit (h : Evolves r marks marks₁ m m' m₁ m₁')
    (hbounded : ∀ i ∈ chain, i < m.heap.frames.size) (hfit : marks.Fit chain flags) :
    marks₁.Fit chain flags := hfit.extend hbounded h.marks

theorem Evolves.fit_chain (h : Evolves r marks marks₁ m m' m₁ m₁') (hm : m.Alike r marks m')
    (hfit : marks.Fit m.chain flags) : marks₁.Fit m₁.chain flags := by
  rw [h.chain]
  exact h.fit hm.bounded hfit

theorem Evolves.bounded (h : Evolves r marks marks₁ m m' m₁ m₁')
    (hbounded : ∀ i ∈ chain, i < m.heap.frames.size) : ∀ i ∈ chain, i < m₁.heap.frames.size :=
  fun i hi => Nat.lt_of_lt_of_le (hbounded i hi) h.frames.size

/-- A change of the heaps. -/
theorem Machine.Alike.withHeap (h : m.Alike r marks m') {k k' : Heap}
    (hk : k.Alike r marks₁ k') (hmarks : marks.Extends marks₁ m.heap.frames.size)
    (hframes : m.heap.frames.Grows k.frames) :
    Evolves r marks marks₁ m m' { m with heap := k } { m' with heap := k' } where
  alike := ⟨hk, Nat.lt_of_lt_of_le h.nonempty hframes.size, h.chain,
    fun i hi => Nat.lt_of_lt_of_le (h.bounded i hi) hframes.size, h.depth, h.sink, h.clock, h.locals⟩
  marks := hmarks
  frames := hframes
  chain := rfl
  locals := rfl
  locals' := rfl

/-- Another chain. -/
theorem Machine.Alike.withChain (h : m.Alike r marks m')
    (hbounded : ∀ i ∈ chain, i < m.heap.frames.size) :
    Machine.Alike r marks { m with chain := chain } { m' with chain := chain } :=
  ⟨h.heap, h.nonempty, rfl, hbounded, h.depth, h.sink, h.clock, h.locals⟩

namespace Agrees

variable {p p' : Exec α} {post : Marks → Machine → α → α → Prop}

theorem pure {a a' : α} (h : m.Alike r marks m') (hpost : post marks m a a') :
    Agrees r marks m m' (pure a) (pure a') post := .ended rfl rfl (.refl h) hpost

/-- One step and then another. -/
theorem bind {f f' : α → Exec β} {mid : Marks → Machine → α → α → Prop}
    {post : Marks → Machine → β → β → Prop} (hp : Agrees r marks m m' p p' mid)
    (hf : ∀ marks₁ m₁ m₁' a a', Evolves r marks marks₁ m m' m₁ m₁' → mid marks₁ m₁ a a' →
      Agrees r marks₁ m₁ m₁' (f a) (f' a') post) :
    Agrees r marks m m' (p >>= f) (p' >>= f') post := by
  have herror : ∀ {q : Exec α} {g : α → Exec β} {n n₁ : Machine} {halt : Halt},
      q n = .error halt n₁ → (q >>= g) n = .error halt n₁ := by
    intro q g n n₁ halt hq
    simp [Bind.bind, EStateM.bind, hq]
  have hok : ∀ {q : Exec α} {g : α → Exec β} {n n₁ : Machine} {a : α},
      q n = .ok a n₁ → (q >>= g) n = g a n₁ := by
    intro q g n n₁ a hq
    simp [Bind.bind, EStateM.bind, hq]
  cases hp with
  | misbound hp hfault => exact .misbound (herror hp) hfault
  | halted hp hp' hhalt hev => exact .halted (herror hp) (herror hp') hhalt hev
  | ended hp hp' hev hmid =>
    cases hf _ _ _ _ _ hev hmid with
    | misbound hq hfault => exact .misbound ((hok hp).trans hq) hfault
    | halted hq hq' hhalt hev' =>
      exact .halted ((hok hp).trans hq) ((hok hp').trans hq') hhalt (hev.trans hev')
    | ended hq hq' hev' hpost =>
      exact .ended ((hok hp).trans hq) ((hok hp').trans hq') (hev.trans hev') hpost

/-- One step and then another one that depends on its result only. -/
theorem bind_equal {f f' : α → Exec β} {post : Marks → Machine → β → β → Prop}
    (hp : Agrees r marks m m' p p' Equal)
    (hf : ∀ marks₁ m₁ m₁' a, Evolves r marks marks₁ m m' m₁ m₁' →
      Agrees r marks₁ m₁ m₁' (f a) (f' a) post) :
    Agrees r marks m m' (p >>= f) (p' >>= f') post :=
  hp.bind fun marks₁ m₁ m₁' a _ hev heq => heq ▸ hf marks₁ m₁ m₁' a hev

theorem map {g : α → β} (hp : Agrees r marks m m' p p' Equal) :
    Agrees r marks m m' (g <$> p) (g <$> p') Equal := by
  have hmap : ∀ q : Exec α, g <$> q = q >>= fun a => Pure.pure (g a) := by
    intro q
    funext n
    simp only [Functor.map, EStateM.map, Bind.bind, EStateM.bind]
    cases q n <;> rfl
  rw [hmap, hmap]
  exact hp.bind_equal fun _ _ _ _ hev => pure hev.alike rfl

theorem get_bind {f f' : Machine → Exec β} {post : Marks → Machine → β → β → Prop}
    (h : Agrees r marks m m' (f m) (f' m') post) :
    Agrees r marks m m' (get >>= f) (get >>= f') post := by
  cases h with
  | misbound hp hfault => exact .misbound hp hfault
  | halted hp hp' hhalt hev => exact .halted hp hp' hhalt hev
  | ended hp hp' hev hpost => exact .ended hp hp' hev hpost

theorem fail {t t' : Token} {fault : RuntimeFault} (h : m.Alike r marks m')
    (hline : r.line t.line t'.line) : Agrees r marks m m' (fail t fault) (fail t' fault) post :=
  .halted rfl rfl (.fault hline) (.refl h)

theorem ofExcept {t t' : Token} (x : Except RuntimeFault α) (h : m.Alike r marks m')
    (hline : r.line t.line t'.line) :
    Agrees r marks m m' (ofExcept t x) (ofExcept t' x) Equal := by
  cases x with
  | ok a => exact pure h rfl
  | error fault => exact fail h hline

/-- Both find the same, or the first one meets a fault that no program with bound names meets. -/
theorem ofExcept_found {t t' : Token} {x x' : Except RuntimeFault α} (h : m.Alike r marks m')
    (hx : (∃ a, x = .ok a ∧ x' = .ok a) ∨
      ∃ fault, x = .error fault ∧ fault.isMisbinding = true) :
    Agrees r marks m m' (Exec.ofExcept t x) (Exec.ofExcept t' x') Equal := by
  rcases hx with ⟨a, rfl, rfl⟩ | ⟨fault, rfl, hfault⟩
  · exact pure h rfl
  · exact .misbound rfl hfault

theorem outOfFuel (h : m.Alike r marks m') :
    Agrees r marks m m' (throw .outOfFuel) (throw .outOfFuel) post :=
  .halted rfl rfl .outOfFuel (.refl h)

/-- A change of the heap. -/
theorem withHeap {f f' : Heap → α × Heap} (h : m.Alike r marks m')
    (hheap : (f m.heap).2.Alike r marks₁ (f' m'.heap).2)
    (hmarks : marks.Extends marks₁ m.heap.frames.size)
    (hframes : m.heap.frames.Grows (f m.heap).2.frames)
    (hpost : post marks₁ { m with heap := (f m.heap).2 } (f m.heap).1 (f' m'.heap).1) :
    Agrees r marks m m' (Exec.withHeap f) (Exec.withHeap f') post :=
  .ended rfl rfl (h.withHeap hheap hmarks hframes) hpost

theorem modifyHeap {f f' : Machine → Heap} (h : m.Alike r marks m')
    (hheap : (f m).Alike r marks (f' m')) (hframes : m.heap.frames.Grows (f m).frames) :
    Agrees r marks m m' (modify fun m => { m with heap := f m })
      (modify fun m => { m with heap := f' m }) Equal :=
  .ended rfl rfl (h.withHeap hheap (fun _ _ => rfl) hframes) rfl

/-- A frame with a mark is made. -/
theorem newFrame {frame frame' : Frame} (h : m.Alike r marks m')
    (hframe : frame.Alike r flag frame') :
    Agrees r marks m m' (Exec.withHeap fun heap => heap.newFrame frame)
      (Exec.withHeap fun heap => heap.newFrame frame') fun marks₁ m₁ i i' =>
        i' = i ∧ i < m₁.heap.frames.size ∧ marks₁ i = flag :=
  withHeap h (h.heap.newFrame h.nonempty hframe) (marks.extends_add _ _) (Frames.grows_push _ _)
    ⟨h.heap.frames_size, (Frames.size_push _ _).symm ▸ Nat.lt_succ_self _, if_pos rfl⟩

/-- A name is given a value in a frame. -/
theorem defineIn {i : FrameId} {x x' : String} {v : Value} (h : m.Alike r marks m')
    (hi : i < m.heap.frames.size) (hx : marks i = true → x ≠ r.new)
    (hname : x' = r.name (marks i) x) :
    Agrees r marks m m' (defineIn i x v) (defineIn i x' v) Equal := by
  subst hname
  exact modifyHeap h (h.heap.define hi hx v) (Frames.grows_define x v hi)

/-- A name is given a value in the innermost frame, which has it then. -/
theorem define {x x' : String} {v : Value} {flags : List Bool} (h : m.Alike r marks m')
    (hfit : marks.Fit m.chain flags) (hx : flags.headD false = true → x ≠ r.new)
    (hname : x' = r.name (flags.headD false) x) :
    Agrees r marks m m' (define x v) (define x' v) fun _ m₁ _ _ =>
      ∀ i ∈ m.chain.head?, (m₁.heap.frames.frame i).contains x = true := by
  refine get_bind ?_
  have hbounded := h.bounded
  rw [h.chain]
  cases hchain : m.chain with
  | nil => exact pure h (by simp)
  | cons i outer =>
    rw [hchain] at hfit hbounded
    rw [← hfit.head] at hx hname
    subst hname
    have hi := hbounded i (List.mem_cons_self ..)
    refine .ended rfl rfl (h.withHeap (h.heap.define hi hx v) (fun _ _ => rfl)
      (Frames.grows_define x v hi)) fun j hj => ?_
    obtain rfl : i = j := by simpa using hj
    rw [Frames.frame_define_self _ _ hi, Table.contains, Table.get?_insert, if_pos rfl]
    rfl

/-- A run in another chain. -/
theorem inChain {chain : Chain}
    (h : Agrees r marks { m with chain := chain } { m' with chain := chain } p p' Equal)
    (hm : m.Alike r marks m') :
    Agrees r marks m m' (inChain chain p) (inChain chain p') Equal := by
  have hback : ∀ {marks₁ m₁ m₁'}, Evolves r marks marks₁ { m with chain := chain }
      { m' with chain := chain } m₁ m₁' → Evolves r marks marks₁ m m' { m₁ with chain := m.chain }
        { m₁' with chain := m'.chain } := by
    intro marks₁ m₁ m₁' hev
    exact ⟨⟨hev.alike.heap, hev.alike.nonempty, hm.chain, hev.bounded hm.bounded, hev.alike.depth,
      hev.alike.sink, hev.alike.clock, hev.alike.locals⟩, hev.marks, hev.frames, rfl, hev.locals,
      hev.locals'⟩
  cases h with
  | misbound hp hfault => exact .misbound (by simp only [Exec.inChain, hp]; rfl) hfault
  | halted hp hp' hhalt hev =>
    exact .halted (by simp only [Exec.inChain, hp]) (by simp only [Exec.inChain, hp']) hhalt
      (hback hev)
  | ended hp hp' hev heq =>
    exact .ended (by simp only [Exec.inChain, hp]) (by simp only [Exec.inChain, hp'])
      (hback hev) heq

/-- A run one call deeper. -/
theorem nested
    (h : Agrees r marks { m with depth := m.depth + 1 } { m' with depth := m'.depth + 1 } p p'
      Equal) : Agrees r marks m m' (nested p) (nested p') Equal := by
  have hback : ∀ {marks₁ m₁ m₁'}, Evolves r marks marks₁ { m with depth := m.depth + 1 }
      { m' with depth := m'.depth + 1 } m₁ m₁' → Evolves r marks marks₁ m m'
        { m₁ with depth := m₁.depth - 1 } { m₁' with depth := m₁'.depth - 1 } := by
    intro marks₁ m₁ m₁' hev
    have ha := hev.alike
    exact ⟨⟨ha.heap, ha.nonempty, ha.chain, ha.bounded, congrArg (· - 1) ha.depth, ha.sink,
      ha.clock, ha.locals⟩, hev.marks, hev.frames, hev.chain, hev.locals, hev.locals'⟩
  cases h with
  | misbound hp hfault => exact .misbound (by simp only [Exec.nested, hp]; rfl) hfault
  | halted hp hp' hhalt hev =>
    exact .halted (by simp only [Exec.nested, hp]) (by simp only [Exec.nested, hp']) hhalt
      (hback hev)
  | ended hp hp' hev heq =>
    exact .ended (by simp only [Exec.nested, hp]) (by simp only [Exec.nested, hp'])
      (hback hev) heq

theorem writeLine {v : Value} (h : m.Alike r marks m') :
    Agrees r marks m m' (writeLine v) (writeLine v) Equal := by
  have hev : ∀ sink, Evolves r marks marks m m' { m with sink := sink }
      { m' with sink := sink } := fun sink =>
    ⟨⟨h.heap, h.nonempty, h.chain, h.bounded, h.depth, rfl, h.clock, h.locals⟩, fun _ _ => rfl,
      .refl _, rfl, rfl, rfl⟩
  have htext : m'.sink.writeLine (m'.heap.text v) = m.sink.writeLine (m.heap.text v) := by
    rw [h.sink, h.heap.text_eq]
  rcases hw : m.sink.writeLine (m.heap.text v) with ⟨_ | fault, sink⟩
  · exact .ended (by simp only [Exec.writeLine, hw]; rfl)
      (by simp only [Exec.writeLine, htext, hw]) (hev sink) rfl
  · exact .halted (by simp only [Exec.writeLine, hw]; rfl)
      (by simp only [Exec.writeLine, htext, hw]) .output (hev sink)

theorem readClock (h : m.Alike r marks m') :
    Agrees r marks m m' Exec.readClock Exec.readClock Equal := by
  have hreading : Exec.readClock m' =
      .ok (.number m.clock.reading) { m' with clock := m.clock.tick } := by
    rw [← h.clock]
    rfl
  exact .ended rfl hreading ⟨⟨h.heap, h.nonempty, h.chain, h.bounded, h.depth, h.sink, rfl,
    h.locals⟩, fun _ _ => rfl, .refl _, rfl, rfl, rfl⟩ rfl

end Agrees

end

end Lox
