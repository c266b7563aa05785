import Lox.Proofs.Machine.Execution
import Lox.Proofs.Machine.Growth
import Lox.Proofs.Machine.Thinning

/-!
# Heaps in which everything that is referred to exists

Each object of a heap is made before anything refers to it, and stays. So whatever a value, a chain
or a class refers to is there. A frame is made after the frames that it is put in front of, and a
class after those that it inherits from, so chains of frames and lines of classes go down.
-/

namespace Lox

variable {c : ClassId} {name : String}

/-! ## Chains -/

/-- The frames of a chain are there, each was made after those behind it, and the last one is the
global frame. -/
inductive Rooted (size : Nat) : Chain → Prop
  | global (h : 0 < size) : Rooted size globalChain
  | inner {i : FrameId} {chain : Chain} (hi : i < size) (hbelow : ∀ j ∈ chain, j < i)
      (h : Rooted size chain) : Rooted size (i :: chain)

namespace Rooted

variable {size size' : Nat} {chain : Chain}

theorem mono (h : Rooted size chain) (hsize : size ≤ size') : Rooted size' chain := by
  induction h with
  | global h => exact .global (Nat.lt_of_lt_of_le h hsize)
  | inner hi hbelow _ ih => exact .inner (Nat.lt_of_lt_of_le hi hsize) hbelow ih

theorem lt_of_mem (h : Rooted size chain) : ∀ i ∈ chain, i < size := by
  induction h with
  | global h => exact List.forall_mem_singleton.2 h
  | inner hi _ _ ih => exact List.forall_mem_cons.2 ⟨hi, ih⟩

/-- A new frame goes in front of a chain. -/
theorem push (h : Rooted size chain) : Rooted (size + 1) (size :: chain) :=
  .inner (Nat.lt_succ_self size) h.lt_of_mem (h.mono (Nat.le_succ size))

theorem newFrame {h : Heap} (hchain : Rooted h.frames.size chain) (frame : Frame) :
    Rooted (h.newFrame frame).2.frames.size (h.frames.next :: chain) := by
  have hsize : (h.newFrame frame).2.frames.size = h.frames.size + 1 := Frames.size_push _ _
  rw [hsize]
  exact hchain.push

end Rooted

namespace Heap

variable {h h' h'' : Heap} {v : Value}

/-! ## Values -/

/-- What a value refers to is there. -/
def Has (h : Heap) : Value → Prop
  | .function f => f < h.functions.size
  | .class_ c => c < h.classes.size
  | .instance_ i => i < h.instances.size
  | .number _ | .string _ | .bool _ | .nil | .native _ => True

/-- A heap to which objects were added. -/
structure Within (h h' : Heap) : Prop where
  frames : h.frames.size ≤ h'.frames.size
  functions : h.functions.size ≤ h'.functions.size
  classes : h.classes.size ≤ h'.classes.size
  instances : h.instances.size ≤ h'.instances.size

theorem Within.refl (h : Heap) : h.Within h :=
  ⟨Nat.le_refl _, Nat.le_refl _, Nat.le_refl _, Nat.le_refl _⟩

theorem Within.trans (hh : h.Within h') (hh' : h'.Within h'') : h.Within h'' where
  frames := Nat.le_trans hh.frames hh'.frames
  functions := Nat.le_trans hh.functions hh'.functions
  classes := Nat.le_trans hh.classes hh'.classes
  instances := Nat.le_trans hh.instances hh'.instances

theorem Has.mono (hv : h.Has v) (hh : h.Within h') : h'.Has v := by
  cases v with
  | function f => exact Nat.lt_of_lt_of_le hv hh.functions
  | class_ c => exact Nat.lt_of_lt_of_le hv hh.classes
  | instance_ i => exact Nat.lt_of_lt_of_le hv hh.instances
  | _ => trivial

theorem has_of_not_isReference (hv : v.isReference = false) : h.Has v := by
  cases v with
  | function f | class_ c | instance_ i => cases hv
  | _ => trivial

/-- A frame with one value. -/
theorem Has.singleton (hv : h.Has v) (x : String) :
    ∀ w ∈ ((∅ : Frame).insert x v).values, h.Has w := by
  intro w hw
  rcases Table.mem_values_insert hw with rfl | hw
  · exact hv
  · cases hw

theorem within_newFunction (h : Heap) (c : Closure) : h.Within (h.newFunction c).2 :=
  { Within.refl h with functions := by simp [newFunction] }

theorem within_newClass (h : Heap) (c : ClassObject) : h.Within (h.newClass c).2 :=
  { Within.refl h with classes := by simp [newClass] }

theorem within_newInstance (h : Heap) (c : ClassId) : h.Within (h.newInstance c).2 :=
  { Within.refl h with instances := by simp [newInstance] }

theorem within_setField (h : Heap) (i : InstanceId) (name : String) (v : Value) :
    h.Within (h.setField i name v) :=
  { Within.refl h with instances := by simp [setField] }

theorem within_setClassField (h : Heap) (c : ClassId) (name : String) (v : Value) :
    h.Within (h.setClassField c name v) :=
  { Within.refl h with classes := by simp [setClassField] }

/-! ## Places without an object -/

theorem cls_of_le (hc : h.classes.size ≤ c) : h.cls c = default := by
  rw [cls, Array.getD_eq_getD_getElem?, Array.getElem?_eq_none hc, Option.getD_none]

theorem inst_of_le {i : InstanceId} (hi : h.instances.size ≤ i) : h.inst i = default := by
  rw [inst, Array.getD_eq_getD_getElem?, Array.getElem?_eq_none hi, Option.getD_none]

/-! ## Closed heaps -/

/-- Everything that a heap refers to is there. -/
structure Closed (h : Heap) : Prop where
  size : 0 < h.frames.size
  bound : ∀ i, ∀ v ∈ (h.frames.frame i).values, h.Has v
  functions : ∀ f < h.functions.size, Rooted h.frames.size (h.function f).chain
  methods : ∀ c, ∀ k ∈ (h.cls c).methods.values, Rooted h.frames.size k.chain
  statics : ∀ c, ∀ v ∈ (h.cls c).fields.values, h.Has v
  ancestors : ∀ c < h.classes.size, ∀ d ∈ (h.cls c).ancestors, d < c
  classes : ∀ i < h.instances.size, (h.inst i).cls < h.classes.size
  fields : ∀ i, ∀ v ∈ (h.inst i).fields.values, h.Has v

namespace Closed

/-- Frames are added or given values. -/
theorem changeFrames (hh : h.Closed) {frames : Frames} (hsize : h.frames.size ≤ frames.size)
    (hbound : ∀ i, ∀ v ∈ (frames.frame i).values, v ∈ (h.frames.frame i).values ∨ h.Has v) :
    Closed { h with frames := frames } where
  size := Nat.lt_of_lt_of_le hh.size hsize
  bound i v hv := (hbound i v hv).elim (hh.bound i v) id
  functions f hf := (hh.functions f hf).mono hsize
  methods c k hk := (hh.methods c k hk).mono hsize
  statics := hh.statics
  ancestors := hh.ancestors
  classes := hh.classes
  fields := hh.fields

theorem newFunction (hh : h.Closed) {c : Closure} (hc : Rooted h.frames.size c.chain) :
    (h.newFunction c).2.Closed :=
  have hwithin := h.within_newFunction c
  { hh with
    bound := fun i v hv => (hh.bound i v hv).mono hwithin
    functions := fun f hf => by
      rw [function_newFunction]
      split
      · exact hc
      · next hne =>
        have hlt : f < h.functions.size + 1 := by simpa [Heap.newFunction] using hf
        exact hh.functions f (Nat.lt_of_le_of_ne (Nat.le_of_lt_succ hlt) hne)
    statics := fun d v hv => (hh.statics d v hv).mono hwithin
    fields := fun i v hv => (hh.fields i v hv).mono hwithin }

/-- A new class refers to what is there, and changes no other one. -/
theorem newClass (hh : h.Closed) {o : ClassObject}
    (hmethods : ∀ k ∈ o.methods.values, Rooted h.frames.size k.chain)
    (hstatics : ∀ v ∈ o.fields.values, h.Has v)
    (hancestors : ∀ d ∈ o.ancestors, d < h.classes.size) : (h.newClass o).2.Closed :=
  have hwithin := h.within_newClass o
  { hh with
    bound := fun i v hv => (hh.bound i v hv).mono hwithin
    methods := fun c => by
      rw [cls_newClass]
      split
      · exact hmethods
      · exact hh.methods c
    statics := fun c => by
      rw [cls_newClass]
      split
      · exact fun v hv => (hstatics v hv).mono hwithin
      · exact fun v hv => (hh.statics c v hv).mono hwithin
    ancestors := fun c hc => by
      rw [cls_newClass]
      split
      · next heq => exact heq ▸ hancestors
      · next hne =>
        have hlt : c < h.classes.size + 1 := by simpa [Heap.newClass] using hc
        exact hh.ancestors c (Nat.lt_of_le_of_ne (Nat.le_of_lt_succ hlt) hne)
    classes := fun i hi => Nat.lt_of_lt_of_le (hh.classes i hi) hwithin.classes
    fields := fun i v hv => (hh.fields i v hv).mono hwithin }

theorem newInstance (hh : h.Closed) (hc : c < h.classes.size) : (h.newInstance c).2.Closed :=
  have hwithin := h.within_newInstance c
  { hh with
    bound := fun i v hv => (hh.bound i v hv).mono hwithin
    statics := fun d v hv => (hh.statics d v hv).mono hwithin
    classes := fun i hi => by
      rw [inst_newInstance]
      split
      · exact hc
      · next hne =>
        have hlt : i < h.instances.size + 1 := by simpa [Heap.newInstance] using hi
        exact hh.classes i (Nat.lt_of_le_of_ne (Nat.le_of_lt_succ hlt) hne)
    fields := fun i => by
      rw [inst_newInstance]
      split
      · exact fun _ h => by cases h
      · exact fun v hv => (hh.fields i v hv).mono hwithin }

theorem setField (hh : h.Closed) (hv : h.Has v) (i : InstanceId) (name : String) :
    (h.setField i name v).Closed :=
  have hwithin := h.within_setField i name v
  { hh with
    bound := fun j w hw => (hh.bound j w hw).mono hwithin
    statics := fun c w hw => (hh.statics c w hw).mono hwithin
    classes := fun j hj => by
      rw [cls_setField]
      exact hh.classes j (by simpa [Heap.setField] using hj)
    fields := fun j w hw => by
      refine Has.mono ?_ hwithin
      rw [inst_setField] at hw
      split at hw
      · rcases Table.mem_values_insert hw with rfl | hw
        · exact hv
        · exact hh.fields j w hw
      · exact hh.fields j w hw }

theorem setClassField (hh : h.Closed) (hv : h.Has v) (c : ClassId) (name : String) :
    (h.setClassField c name v).Closed :=
  have hwithin := h.within_setClassField c name v
  { hh with
    bound := fun j w hw => (hh.bound j w hw).mono hwithin
    methods := fun d k hk => hh.methods d k (by rwa [methods_setClassField] at hk)
    statics := fun d w hw => by
      refine Has.mono ?_ hwithin
      rw [cls_setClassField] at hw
      split at hw
      · rcases Table.mem_values_insert hw with rfl | hw
        · exact hv
        · exact hh.statics d w hw
      · exact hh.statics d w hw
    ancestors := fun d hd => by
      rw [ancestors_setClassField]
      exact hh.ancestors d (by simpa [Heap.setClassField] using hd)
    classes := fun i hi => Nat.lt_of_lt_of_le (hh.classes i hi) hwithin.classes
    fields := fun i w hw => (hh.fields i w hw).mono hwithin }

/-! ## Looking things up -/

theorem get (hh : h.Closed) {chain : Chain} (hv : h.frames.get name chain = .ok v) : h.Has v := by
  induction chain with
  | nil => cases hv
  | cons i outer ih =>
    unfold Frames.get at hv
    split at hv
    · next hw =>
      cases hv
      exact hh.bound i v (Table.mem_values_of_get? hw)
    · exact ih hv

theorem getAt (hh : h.Closed) {chain : Chain} {distance : Nat}
    (hv : h.frames.getAt chain distance name = .ok v) : h.Has v := by
  unfold Frames.getAt at hv
  cases hi : Frames.frameAt name chain distance with
  | error fault =>
    rw [hi] at hv
    cases hv
  | ok i =>
    rw [hi] at hv
    simp only [bind, Except.bind] at hv
    split at hv
    · next hw =>
      cases hv
      exact hh.bound i v (Table.mem_values_of_get? hw)
    · cases hv

theorem classField? (hh : h.Closed) (hv : h.classField? c name = some v) : h.Has v := by
  obtain ⟨d, -, hd⟩ := List.exists_of_findSome?_eq_some hv
  exact hh.statics d v (Table.mem_values_of_get? hd)

/-- The classes that a class inherits from are there. -/
theorem lt_of_mem_lineage (hh : h.Closed) (hc : c < h.classes.size) :
    ∀ d ∈ h.lineage c, d < h.classes.size :=
  List.forall_mem_cons.2 ⟨hc, fun d hd => Nat.lt_trans (hh.ancestors c hc d hd) hc⟩

end Closed

end Heap

/-! ## Machines -/

/-- Everything that a machine refers to is there. -/
structure Machine.Closed (m : Machine) : Prop where
  heap : m.heap.Closed
  chain : Rooted m.heap.frames.size m.chain

theorem Machine.closed_initial (sink : Sink) (clock : Clock) :
    (Machine.initial sink clock).Closed where
  heap :=
    { size := Nat.zero_lt_one
      bound := fun i v hv => by
        match i with
        | 0 =>
          have hglobals : v ∈ initialGlobals.values := hv
          rcases Table.mem_values_insert hglobals with rfl | hglobals
          · trivial
          · rcases Table.mem_values_insert hglobals with rfl | hglobals
            · trivial
            · cases hglobals
        | i + 1 => cases hv
      functions := fun f hf => absurd hf (Nat.not_lt_zero f)
      methods := fun c k hk => nomatch hk
      statics := fun c v hv => nomatch hv
      ancestors := fun c hc => absurd hc (Nat.not_lt_zero c)
      classes := fun i hi => absurd hi (Nat.not_lt_zero i)
      fields := fun i v hv => nomatch hv }
  chain := .global Nat.zero_lt_one

end Lox
