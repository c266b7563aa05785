import Lox.Heap.Frame
import Mathlib.Logic.Function.Basic

/-!
# Frames as a store of slots

A frame leads to the one around it, and so on to an outermost one. What frames hold is a store with
a slot for each frame and each name. From a frame, a name is looked for outward, or in the frame at
a known distance. Both come to the same slot if the distance is the least one at which the name has
a value, whatever was written to shared frames before. What is written goes to one slot, and it is
seen from every frame that the look for the name brings there.
-/

namespace Lox

namespace Frames

variable {fs : Frames} {chain : Chain} {f : FrameId} {name : String} {v : Value} {d : Nat}

theorem frameAt_of_getElem? (h : chain[d]? = some f) : frameAt name chain d = .ok f := by
  induction chain generalizing d with
  | nil => cases h
  | cons g chain ih =>
    cases d with
    | zero =>
      obtain rfl := Option.some.inj h
      rfl
    | succ d => exact ih h

theorem frameAt_of_getElem?_eq_none (h : chain[d]? = none) :
    frameAt name chain d = .error (.unresolvableDepth name) := by
  induction chain generalizing d with
  | nil => rfl
  | cons g chain ih =>
    cases d with
    | zero => cases h
    | succ d => exact ih h

theorem getAt_eq (fs : Frames) (chain : Chain) (d : Nat) (name : String) :
    fs.getAt chain d name =
      match chain[d]? with
      | none => .error (.unresolvableDepth name)
      | some f =>
        match (fs.frame f).get? name with
        | some v => .ok v
        | none => .error (.undefinedAtDistance name) := by
  rw [getAt]
  cases h : chain[d]? with
  | none => rw [frameAt_of_getElem?_eq_none h]; rfl
  | some f => rw [frameAt_of_getElem? h]; rfl

theorem assignAt_eq (fs : Frames) (chain : Chain) (d : Nat) (name : String) (v : Value) :
    fs.assignAt chain d name v =
      match chain[d]? with
      | none => .error (.unresolvableDepth name)
      | some f => .ok (fs.define f name v) := by
  rw [assignAt]
  cases h : chain[d]? with
  | none => rw [frameAt_of_getElem?_eq_none h]; rfl
  | some f => rw [frameAt_of_getElem? h]; rfl

/-- The value of a name at the first distance where it has one, and the frame there. There is
neither if no frame of the chain has the name. -/
theorem look_cases (fs : Frames) (name : String) (chain : Chain) :
    (∃ (k : Nat) (f : FrameId) (v : Value), chain[k]? = some f ∧ (fs.frame f).get? name = some v ∧
      (∀ j < k, ∀ g ∈ chain[j]?, (fs.frame g).get? name = none) ∧
        fs.get name chain = .ok v ∧ fs.holder name chain = .ok f) ∨
      ((∀ g ∈ chain, (fs.frame g).get? name = none) ∧
        fs.get name chain = .error (.undefinedVariable name) ∧
          fs.holder name chain = .error (.undefinedVariable name)) := by
  induction chain with
  | nil => exact .inr ⟨nofun, rfl, rfl⟩
  | cons g chain ih =>
    cases hg : (fs.frame g).get? name with
    | some v =>
      exact .inl ⟨0, g, v, rfl, hg, fun _ h => absurd h (Nat.not_lt_zero _), by simp [get, hg],
        by simp [holder, Table.contains, hg]⟩
    | none =>
      have hnext : fs.get name (g :: chain) = fs.get name chain ∧
          fs.holder name (g :: chain) = fs.holder name chain := by
        simp [get, holder, Table.contains, hg]
      rw [hnext.1, hnext.2]
      rcases ih with ⟨k, f, v, hk, hv, hbefore, hget, hholder⟩ | ⟨hnone, hget, hholder⟩
      · refine .inl ⟨k + 1, f, v, hk, hv, fun j hj g' hg' => ?_, hget, hholder⟩
        cases j with
        | zero =>
          obtain rfl := Option.some.inj hg'
          exact hg
        | succ j => exact hbefore j (Nat.lt_of_succ_lt_succ hj) g' hg'
      · exact .inr ⟨List.forall_mem_cons.2 ⟨hg, hnone⟩, hget, hholder⟩

/-- Whether the look for a name along a chain comes to a frame. -/
def comesTo (fs : Frames) (name : String) (f : FrameId) : Chain → Bool
  | [] => false
  | id :: outer => id == f || (!(fs.frame id).contains name && fs.comesTo name f outer)

/-- What is written is read wherever the look for its name comes to the frame. -/
theorem get_define (h : f < fs.size) (y : String) (chain : Chain) :
    (fs.define f name v).get y chain =
      if y = name ∧ fs.comesTo name f chain = true then .ok v else fs.get y chain := by
  induction chain with
  | nil => simp [get, comesTo]
  | cons g chain ih =>
    simp only [get, comesTo, ih, Bool.or_eq_true, beq_iff_eq, Bool.and_eq_true, Table.contains]
    by_cases hg : g = f
    · subst hg
      rw [frame_define_self name v h, Table.get?_insert]
      by_cases hy : y = name <;> simp [hy]
    · rw [frame_define_of_ne name v hg]
      by_cases hy : y = name
      · subst hy
        cases hv : (fs.frame g).get? y <;> simp [hg]
      · simp [hy]

/-- At a distance, only the frame that is written to has another value. -/
theorem getAt_define (h : f < fs.size) (y : String) (chain : Chain) (k : Nat) :
    (fs.define f name v).getAt chain k y =
      if chain[k]? = some f ∧ y = name then .ok v else fs.getAt chain k y := by
  rw [getAt_eq, getAt_eq]
  cases chain[k]? with
  | none => simp
  | some g =>
    by_cases hg : g = f
    · subst hg
      simp only [frame_define_self name v h, Table.get?_insert]
      by_cases hy : y = name <;> simp [hy]
    · simp [frame_define_of_ne name v hg, hg]

end Frames

/-- From each frame outward, where a frame was there before those inside it. -/
def pathOut (outer : FrameId → Option FrameId)
    (older : ∀ {id around}, outer id = some around → around < id) (id : FrameId) : Chain :=
  match h : outer id with
  | none => [id]
  | some around =>
    have := older h
    id :: pathOut outer older around
termination_by id

/-- Frames inside each other. A frame was there before those inside it. -/
structure FrameTree where
  frames : Frames
  outer : FrameId → Option FrameId
  older : ∀ {id around}, outer id = some around → around < id

/-- What is done from a frame. -/
inductive FrameStep where
  | child (id : FrameId)
  | define (id : FrameId) (name : String) (v : Value)
  | assign (id : FrameId) (name : String) (v : Value)
  | assignAt (id : FrameId) (distance : Nat) (name : String) (v : Value)
  | get (id : FrameId) (name : String)
  | getAt (id : FrameId) (distance : Nat) (name : String)

namespace FrameStep

def start : FrameStep → FrameId
  | child id | define id _ _ | assign id _ _ | assignAt id _ _ _ | get id _ | getAt id _ _ => id

/-- The name that a step gives a value. -/
def written? : FrameStep → Option (String × Value)
  | define _ name v | assign _ name v | assignAt _ _ name v => some (name, v)
  | _ => none

/-- What a step answers. -/
inductive Answer where
  | made (id : FrameId)
  | done
  | value (v : Value)
  | fault (f : RuntimeFault)

end FrameStep

open FrameStep

namespace FrameTree

variable (t : FrameTree)

def chain (id : FrameId) : Chain := pathOut t.outer t.older id

def global : FrameTree := ⟨({} : Frames).push ∅, fun _ => none, nofun⟩

def get (id : FrameId) (name : String) : Except RuntimeFault Value :=
  t.frames.get name (t.chain id)

def getAt (id : FrameId) (distance : Nat) (name : String) : Except RuntimeFault Value :=
  t.frames.getAt (t.chain id) distance name

def assign (id : FrameId) (name : String) (v : Value) : Except RuntimeFault Frames :=
  t.frames.assign name v (t.chain id)

def assignAt (id : FrameId) (distance : Nat) (name : String) (v : Value) :
    Except RuntimeFault Frames :=
  t.frames.assignAt (t.chain id) distance name v

/-- A new frame inside a frame. -/
def child (id : FrameId) : FrameTree where
  frames := t.frames.push ∅
  outer := Function.update t.outer t.frames.next (if id < t.frames.next then some id else none)
  older {i around} h := by
    by_cases hi : i = t.frames.next
    · subst hi
      rw [Function.update_self] at h
      split at h
      · exact Option.some.inj h ▸ ‹_›
      · cases h
    · rw [Function.update_of_ne hi] at h
      exact t.older h

/-- What a write leaves, if it is not refused. -/
def settle : Except RuntimeFault Frames → Answer × FrameTree
  | .ok frames => (.done, { t with frames })
  | .error f => (.fault f, t)

/-- What is read, or why nothing is. -/
def report : Except RuntimeFault Value → Answer
  | .ok v => .value v
  | .error f => .fault f

/-- Take a step. -/
def apply : FrameStep → Answer × FrameTree
  | .child id => (.made t.frames.next, t.child id)
  | .define id name v => (.done, { t with frames := t.frames.define id name v })
  | .assign id name v => t.settle (t.assign id name v)
  | .assignAt id distance name v => t.settle (t.assignAt id distance name v)
  | .get id name => (report (t.get id name), t)
  | .getAt id distance name => (report (t.getAt id distance name), t)

/-- Each step starts from a frame that is there. -/
def Runs (t : FrameTree) : List FrameStep → Prop
  | [] => True
  | step :: steps => step.start < t.frames.size ∧ (t.apply step).2.Runs steps

def run (t : FrameTree) (steps : List FrameStep) : FrameTree :=
  steps.foldl (fun t step => (t.apply step).2) t

/-- What the steps answer. -/
def answers (t : FrameTree) : List FrameStep → List Answer
  | [] => []
  | step :: steps => (t.apply step).1 :: (t.apply step).2.answers steps

end FrameTree

/-! ## The store -/

/-- The place so many pointers on. -/
def hops (next : Nat → Option Nat) : Nat → Nat → Option Nat
  | 0, i => some i
  | d + 1, i => (next i).bind (hops next d)

/-- A slot for each frame and each name, and the frame around each frame. -/
structure SlotStore where
  size : Nat
  outer : FrameId → Option FrameId
  slot : FrameId → String → Option Value

namespace SlotStore

variable (s : SlotStore)

def reach : Nat → FrameId → Option FrameId := hops s.outer

/-- The least distance at which a name has a value. -/
def nearest? (id : FrameId) (name : String) : Option Nat :=
  (List.range s.size).find? fun k => ((s.reach k id).bind (s.slot · name)).isSome

def write (f : FrameId) (name : String) (v : Value) : SlotStore :=
  { s with slot := fun g y => if g = f ∧ y = name then some v else s.slot g y }

def readAt (id : FrameId) (distance : Nat) (name : String) : Answer :=
  match s.reach distance id with
  | none => .fault (.unresolvableDepth name)
  | some f =>
    match s.slot f name with
    | some v => .value v
    | none => .fault (.undefinedAtDistance name)

def writeAt (id : FrameId) (distance : Nat) (name : String) (v : Value) : Answer × SlotStore :=
  match s.reach distance id with
  | none => (.fault (.unresolvableDepth name), s)
  | some f => (.done, s.write f name v)

/-- Take a step. Names are only ever found at a distance. -/
def apply : FrameStep → Answer × SlotStore
  | .child id => (.made s.size,
      { s with size := s.size + 1, outer := Function.update s.outer s.size (some id) })
  | .define id name v => (.done, s.write id name v)
  | .assign id name v =>
    match s.nearest? id name with
    | some k => s.writeAt id k name v
    | none => (.fault (.undefinedVariable name), s)
  | .assignAt id distance name v => s.writeAt id distance name v
  | .get id name =>
    match s.nearest? id name with
    | some k => (s.readAt id k name, s)
    | none => (.fault (.undefinedVariable name), s)
  | .getAt id distance name => (s.readAt id distance name, s)

def run (s : SlotStore) (steps : List FrameStep) : SlotStore :=
  steps.foldl (fun s step => (s.apply step).2) s

/-- What the steps answer. -/
def answers (s : SlotStore) : List FrameStep → List Answer
  | [] => []
  | step :: steps => (s.apply step).1 :: (s.apply step).2.answers steps

end SlotStore

namespace FrameTree

variable {t : FrameTree} {id f : FrameId} {name : String} {v : Value} {k : Nat}

/-- What frames hold, slot by slot. -/
def store (t : FrameTree) : SlotStore :=
  ⟨t.frames.size, t.outer, fun f name => (t.frames.frame f).get? name⟩

theorem chain_eq (t : FrameTree) (id : FrameId) :
    t.chain id = id :: ((t.outer id).elim [] t.chain) := by
  rw [chain, pathOut]
  split <;> rename_i h <;> simp [h, chain]

theorem getElem?_chain (t : FrameTree) (k : Nat) (id : FrameId) :
    (t.chain id)[k]? = t.store.reach k id := by
  induction k generalizing id with
  | zero => rw [chain_eq]; rfl
  | succ k ih =>
    rw [chain_eq, List.getElem?_cons_succ]
    simp only [SlotStore.reach, hops, store]
    cases t.outer id with
    | none => rfl
    | some around => exact ih around

theorem le_of_mem_chain (t : FrameTree) (id : FrameId) : ∀ f ∈ t.chain id, f ≤ id := by
  induction id using Nat.strongRecOn with
  | ind id ih =>
    rw [chain_eq]
    refine List.forall_mem_cons.2 ⟨Nat.le_refl _, ?_⟩
    cases h : t.outer id with
    | none => exact fun _ hf => by cases hf
    | some around =>
      intro f hf
      exact Nat.le_trans (ih around (t.older h) f hf) (Nat.le_of_lt (t.older h))

theorem length_chain_le (t : FrameTree) (id : FrameId) : (t.chain id).length ≤ id + 1 := by
  induction id using Nat.strongRecOn with
  | ind id ih =>
    rw [chain_eq, List.length_cons]
    cases h : t.outer id with
    | none => simp
    | some around =>
      exact Nat.succ_le_succ (Nat.le_trans (ih around (t.older h)) (t.older h))

/-- The look for a name outward is the look at the least distance. -/
theorem look_nearest (h : id < t.frames.size) (name : String) :
    match t.store.nearest? id name with
    | some k => t.get id name = t.getAt id k name ∧
        ∀ v, t.assign id name v = t.assignAt id k name v
    | none => t.get id name = .error (.undefinedVariable name) ∧
        ∀ v, t.assign id name v = .error (.undefinedVariable name) := by
  have hreach : ∀ k, (t.store.reach k id).bind (t.store.slot · name) =
      (t.chain id)[k]?.bind fun f => (t.frames.frame f).get? name :=
    fun k => by rw [getElem?_chain]; rfl
  simp only [SlotStore.nearest?, hreach]
  rcases t.frames.look_cases name (t.chain id) with
    ⟨k, f, v, hk, hv, hbefore, hget, hholder⟩ | ⟨hnone, hget, hholder⟩
  · have hfind : (List.range t.store.size).find? (fun k =>
        ((t.chain id)[k]?.bind fun f => (t.frames.frame f).get? name).isSome) = some k := by
      rw [List.find?_range_eq_some]
      refine ⟨by simp [hk, hv], List.mem_range.2 ?_, fun j hj => ?_⟩
      · have hlt := (List.getElem?_eq_some_iff.1 hk).1
        exact Nat.lt_of_lt_of_le hlt (Nat.le_trans (t.length_chain_le id) h)
      · cases hg : (t.chain id)[j]? with
        | none => rfl
        | some g => simp [hbefore j hj g hg]
    rw [hfind]
    refine ⟨?_, fun v => ?_⟩
    · simp only [get, getAt, Frames.getAt_eq, hget, hk, hv]
    · simp only [assign, assignAt, Frames.assign, Frames.assignAt_eq, hholder, hk]
      rfl
  · have hfind : (List.range t.store.size).find? (fun k =>
        ((t.chain id)[k]?.bind fun f => (t.frames.frame f).get? name).isSome) = none := by
      rw [List.find?_eq_none]
      intro k _
      cases hg : (t.chain id)[k]? with
      | none => simp
      | some g => simp [hnone g (List.mem_of_getElem? hg)]
    rw [hfind]
    exact ⟨hget, fun v => by simp only [assign, Frames.assign, hholder]; rfl⟩

theorem report_getAt (t : FrameTree) (id : FrameId) (k : Nat) (name : String) :
    report (t.getAt id k name) = t.store.readAt id k name := by
  simp only [getAt, Frames.getAt_eq, SlotStore.readAt, ← getElem?_chain]
  cases (t.chain id)[k]? with
  | none => rfl
  | some f =>
    simp only [store]
    cases (t.frames.frame f).get? name <;> rfl

/-- A new frame is as empty as one that is not there. -/
theorem frame_push_empty (fs : Frames) (f : FrameId) :
    (fs.push ∅).frame f = fs.frame f := by
  simp only [Frames.frame, Frames.push, Array.getD_eq_getD_getElem?, Array.getElem?_push]
  split
  · rename_i hf
    subst hf
    simp
  · rfl

/-- To define a name in a frame is to write its slot. -/
theorem store_define (h : f < t.frames.size) :
    ({ t with frames := t.frames.define f name v } : FrameTree).store = t.store.write f name v := by
  simp only [store, SlotStore.write, Frames.size_define, SlotStore.mk.injEq, true_and]
  funext g y
  by_cases hg : g = f
  · subst hg
    rw [Frames.frame_define_self name v h, Table.get?_insert]
    simp
  · rw [Frames.frame_define_of_ne name v hg]
    simp [hg]

theorem settle_assignAt (h : id < t.frames.size) :
    (t.settle (t.assignAt id k name v)).1 = (t.store.writeAt id k name v).1 ∧
      (t.settle (t.assignAt id k name v)).2.store = (t.store.writeAt id k name v).2 := by
  simp only [assignAt, Frames.assignAt_eq, SlotStore.writeAt, ← getElem?_chain]
  cases hk : (t.chain id)[k]? with
  | none => exact ⟨rfl, rfl⟩
  | some f =>
    have hf := t.le_of_mem_chain id f (List.mem_of_getElem? hk)
    exact ⟨rfl, store_define (Nat.lt_of_le_of_lt hf h)⟩

/-- One step is answered and changes the slots as the store says. -/
theorem apply_store {step : FrameStep} (h : step.start < t.frames.size) :
    (t.apply step).1 = (t.store.apply step).1 ∧
      (t.apply step).2.store = (t.store.apply step).2 := by
  cases step with
  | child id =>
    have hid : id < t.frames.next := h
    refine ⟨rfl, ?_⟩
    simp only [apply, child, store, SlotStore.apply, Frames.size_push, if_pos hid,
      SlotStore.mk.injEq, true_and]
    refine ⟨rfl, funext fun f => ?_⟩
    rw [frame_push_empty]
  | define id name v => exact ⟨rfl, store_define h⟩
  | assign id name v =>
    have hlook := look_nearest (show id < _ from h) name
    simp only [apply, SlotStore.apply]
    cases hk : t.store.nearest? id name with
    | none =>
      rw [hk] at hlook
      rw [hlook.2 v]
      exact ⟨rfl, rfl⟩
    | some k =>
      rw [hk] at hlook
      rw [hlook.2 v]
      exact settle_assignAt h
  | assignAt id k name v => exact settle_assignAt h
  | get id name =>
    have hlook := look_nearest (show id < _ from h) name
    simp only [apply, SlotStore.apply]
    cases hk : t.store.nearest? id name with
    | none =>
      rw [hk] at hlook
      exact ⟨congrArg report hlook.1, rfl⟩
    | some k =>
      rw [hk] at hlook
      exact ⟨(congrArg report hlook.1).trans (report_getAt t id k name), rfl⟩
  | getAt id k name => exact ⟨report_getAt t id k name, rfl⟩

/-- All steps are. -/
theorem run_store {steps : List FrameStep} (h : t.Runs steps) :
    t.answers steps = t.store.answers steps ∧ (t.run steps).store = t.store.run steps := by
  induction steps generalizing t with
  | nil => exact ⟨rfl, rfl⟩
  | cons step steps ih =>
    obtain ⟨hanswer, hstore⟩ := apply_store h.1
    obtain ⟨hanswers, hrun⟩ := ih h.2
    rw [hstore] at hanswers hrun
    exact ⟨by rw [answers, SlotStore.answers, hanswer, hanswers], hrun⟩

/-- A step that fails changes nothing. -/
theorem apply_of_fault {step : FrameStep} {fault : RuntimeFault}
    (h : (t.apply step).1 = .fault fault) : (t.apply step).2 = t := by
  have hsettle : ∀ result, (t.settle result).1 = .fault fault → (t.settle result).2 = t := by
    intro result hresult
    cases result with
    | ok frames => cases hresult
    | error f => rfl
  cases step with
  | child id => cases h
  | define id name v => cases h
  | assign id name v => exact hsettle _ h
  | assignAt id k name v => exact hsettle _ h
  | get id name => rfl
  | getAt id k name => rfl

/-- A step that writes does so in a frame that can be seen from where it starts. -/
theorem apply_of_written {step : FrameStep} (hwritten : step.written? = some (name, v))
    (h : (t.apply step).1 = .done) :
    ∃ f ∈ t.chain step.start,
      (t.apply step).2 = { t with frames := t.frames.define f name v } := by
  cases step with
  | child id => cases hwritten
  | get id name => cases hwritten
  | getAt id k name => cases hwritten
  | define id name v =>
    obtain ⟨rfl, rfl⟩ := Prod.mk.inj (Option.some.inj hwritten)
    exact ⟨id, by rw [start, chain_eq]; exact List.mem_cons_self, rfl⟩
  | assign id name v =>
    obtain ⟨rfl, rfl⟩ := Prod.mk.inj (Option.some.inj hwritten)
    simp only [apply, assign, Frames.assign] at h ⊢
    rcases t.frames.look_cases name (t.chain id) with
      ⟨k, f, _, hk, -, -, -, hholder⟩ | ⟨-, -, hholder⟩
    · rw [hholder]
      exact ⟨f, List.mem_of_getElem? hk, rfl⟩
    · rw [hholder] at h
      cases h
  | assignAt id k name v =>
    obtain ⟨rfl, rfl⟩ := Prod.mk.inj (Option.some.inj hwritten)
    simp only [apply, assignAt, Frames.assignAt_eq] at h ⊢
    cases hk : (t.chain id)[k]? with
    | none =>
      rw [hk] at h
      cases h
    | some f => exact ⟨f, List.mem_of_getElem? hk, rfl⟩

/-- **Lookups refine a store of slots.** After any steps, the answers and the slots are those of the
store, where names are only found at a distance. So a name that is looked for outward is the one at
the least distance where it has a value, and to assign to it is to assign there. There is no frame
at a distance exactly where the chain is too short. A failure changes nothing. What is written goes
to one slot: at a distance it is read from that frame only, and outward wherever the look for the
name comes to the frame. -/
theorem lookups_refine_slots {steps : List FrameStep} (h : global.Runs steps) :
    let t := global.run steps
    (global.answers steps = global.store.answers steps ∧ t.store = global.store.run steps) ∧
      (∀ id < t.frames.size, ∀ name,
        match t.store.nearest? id name with
        | some k => t.get id name = t.getAt id k name ∧
            ∀ v, t.assign id name v = t.assignAt id k name v
        | none => t.get id name = .error (.undefinedVariable name) ∧
            ∀ v, t.assign id name v = .error (.undefinedVariable name)) ∧
      (∀ id k name, (t.getAt id k name = .error (.unresolvableDepth name) ↔
          (t.chain id).length ≤ k) ∧
        ∀ v, t.assignAt id k name v = .error (.unresolvableDepth name) ↔
          (t.chain id).length ≤ k) ∧
      (∀ step fault, (t.apply step).1 = .fault fault → (t.apply step).2 = t) ∧
      ∀ step name v, step.start < t.frames.size → step.written? = some (name, v) →
        (t.apply step).1 = .done →
          ∃ f ∈ t.chain step.start,
            (t.apply step).2.store = t.store.write f name v ∧
            (∀ id, (t.apply step).2.chain id = t.chain id) ∧
            (∀ id k y, (t.apply step).2.getAt id k y =
              if (t.chain id)[k]? = some f ∧ y = name then .ok v else t.getAt id k y) ∧
            ∀ id y, (t.apply step).2.get id y =
              if y = name ∧ t.frames.comesTo name f (t.chain id) = true then .ok v
              else t.get id y := by
  intro t
  refine ⟨run_store h, fun id hid name => look_nearest hid name, fun id k name => ⟨?_, fun v => ?_⟩,
    fun step fault => apply_of_fault, fun step name v hstart hwritten hdone => ?_⟩
  · rw [getAt, Frames.getAt_eq, ← List.getElem?_eq_none_iff]
    cases (t.chain id)[k]? with
    | none => simp
    | some f => cases hv : (t.frames.frame f).get? name <;> simp [hv]
  · rw [assignAt, Frames.assignAt_eq, ← List.getElem?_eq_none_iff]
    cases (t.chain id)[k]? <;> simp
  · obtain ⟨f, hf, happly⟩ := apply_of_written hwritten hdone
    have hlt : f < t.frames.size := Nat.lt_of_le_of_lt (t.le_of_mem_chain _ f hf) hstart
    rw [happly]
    exact ⟨f, hf, store_define hlt, fun _ => rfl,
      fun id k y => Frames.getAt_define hlt y (t.chain id) k,
      fun id y => Frames.get_define hlt y (t.chain id)⟩

/-- From a frame inside the outermost one, a name of both is the inner one. From another frame beside
it, the same name is one step out. -/
theorem lookups_refine_slots_shadowed :
    let steps := [.define 0 "x" .nil, .child 0, .define 1 "x" (.bool true), .child 0]
    let t := global.run steps
    global.Runs steps ∧ t.get 1 "x" = t.getAt 1 0 "x" ∧ t.get 2 "x" = t.getAt 2 1 "x" := by
  intro steps t
  have hruns : global.Runs steps := ⟨by decide, by decide, by decide, by decide, trivial⟩
  have hinner : t.store.nearest? 1 "x" = some 0 := by decide
  have houter : t.store.nearest? 2 "x" = some 1 := by decide
  obtain ⟨-, hlook, -⟩ := lookups_refine_slots hruns
  have hfirst := hlook 1 (by decide) "x"
  have hsecond := hlook 2 (by decide) "x"
  rw [hinner] at hfirst
  rw [houter] at hsecond
  exact ⟨hruns, hfirst.1, hsecond.1⟩

end FrameTree

end Lox
