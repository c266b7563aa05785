import Mathlib.Data.Nat.Count
import Lox.Proofs.Machine.Traces
import Lox.Proofs.Machine.Flat
import Lox.Proofs.Scope.Flat
import Lox.Proofs.Table

/-!
# Heaps with places left out

Some frames and functions may be left out of a heap. The others move together, so that each of
them gets the number of kept ones before it as its place, and what refers to them follows. Values
refer to functions, and functions and methods refer to the frames of their chains.

Reading and changing the heap goes together with leaving out, as long as nothing that is left out
is read or changed.
-/

namespace Lox

/-! ## Arrays with places left out -/

section

variable {α β : Type}

/-- The elements of a list at the places that are kept, each changed in the same way. -/
def compactList (g : α → β) : (Nat → Bool) → List α → List β
  | _, [] => []
  | keep, a :: as =>
    let rest := compactList g (fun i => keep (i + 1)) as
    if keep 0 then g a :: rest else rest

/-- The elements of an array at the places that are kept, each changed in the same way. -/
def compact (g : α → β) (keep : Nat → Bool) (xs : Array α) : Array β :=
  (compactList g keep xs.toList).toArray

/-- How many of the places before a given one are kept. -/
def rank (keep : Nat → Bool) (i : Nat) : Nat := Nat.count (fun j => keep j = true) i

variable {keep : Nat → Bool} {i j : Nat} {g : α → β}

theorem rank_zero : rank keep 0 = 0 := Nat.count_zero _

theorem rank_succ : rank keep (i + 1) = rank keep i + if keep i then 1 else 0 :=
  Nat.count_succ _ i

theorem rank_succ' :
    rank keep (i + 1) = rank (fun j => keep (j + 1)) i + if keep 0 then 1 else 0 :=
  Nat.count_succ' _ i

theorem rank_inj (hi : keep i = true) (hj : keep j = true) : rank keep i = rank keep j ↔ i = j :=
  ⟨Nat.count_injective hi hj, fun h => by rw [h]⟩

theorem rank_of_forall (h : ∀ j < i, keep j = true) : rank keep i = i :=
  Nat.count_iff_forall.2 h

theorem length_compactList (as : List α) :
    (compactList g keep as).length = rank keep as.length := by
  induction as generalizing keep with
  | nil => exact rank_zero.symm
  | cons a as ih =>
    rw [List.length_cons, rank_succ', compactList]
    split <;> simp [*]

theorem getElem?_compactList (hi : keep i = true) (as : List α) :
    (compactList g keep as)[rank keep i]? = as[i]?.map g := by
  induction as generalizing keep i with
  | nil => simp [compactList]
  | cons a as ih =>
    cases i with
    | zero => simp [compactList, rank_zero, hi]
    | succ i =>
      rw [rank_succ', List.getElem?_cons_succ, ← @ih (fun j => keep (j + 1)) i hi, compactList]
      split <;> simp [*]

theorem compactList_append (as : List α) (a : α) :
    compactList g keep (as ++ [a]) =
      compactList g keep as ++ if keep as.length then [g a] else [] := by
  induction as generalizing keep with
  | nil => simp [compactList]
  | cons b as ih =>
    simp only [List.cons_append, compactList, ih, List.length_cons]
    split <;> simp

theorem compactList_modify {f : α → α} {f' : β → β} (hi : keep i = true)
    (hf : ∀ a, g (f a) = f' (g a)) (as : List α) :
    compactList g keep (as.modify i f) = (compactList g keep as).modify (rank keep i) f' := by
  induction as generalizing keep i with
  | nil => simp [compactList]
  | cons a as ih =>
    cases i with
    | zero => simp [compactList, rank_zero, hi, hf]
    | succ i =>
      rw [rank_succ', List.modify_succ_cons, compactList, @ih (fun j => keep (j + 1)) i hi,
        compactList]
      split <;> simp

theorem size_compact (xs : Array α) : (compact g keep xs).size = rank keep xs.size := by
  simp [compact, length_compactList]

theorem getElem?_compact (hi : keep i = true) (xs : Array α) :
    (compact g keep xs)[rank keep i]? = xs[i]?.map g := by
  simp [compact, getElem?_compactList hi]

theorem compact_push (xs : Array α) (a : α) :
    compact g keep (xs.push a) =
      if keep xs.size then (compact g keep xs).push (g a) else compact g keep xs := by
  simp only [compact, Array.toList_push, compactList_append, Array.length_toList]
  split <;> simp

theorem compact_modify {f : α → α} {f' : β → β} (hi : keep i = true)
    (hf : ∀ a, g (f a) = f' (g a)) (xs : Array α) :
    compact g keep (xs.modify i f) = (compact g keep xs).modify (rank keep i) f' := by
  apply Array.toList_inj.1
  simp [compact, compactList_modify hi hf]

/-- The places from `a` on up to `b` are left out: those before `a` stay, and those from `b` on move
down. -/
theorem rank_of_gap {a b : Nat} (hab : a ≤ b) (hkeep : ∀ i, keep i = true ↔ i < a ∨ b ≤ i) :
    (∀ i ≤ a, rank keep i = i) ∧ ∀ i, b ≤ i → rank keep i + (b - a) = i := by
  have hlow : ∀ i ≤ a, rank keep i = i := fun i hi =>
    rank_of_forall fun j hj => (hkeep j).2 (.inl (by omega))
  have hgap : ∀ i, a ≤ i → i ≤ b → rank keep i = a := by
    intro i hai
    induction i, hai using Nat.le_induction with
    | base => exact fun _ => hlow a (Nat.le_refl a)
    | succ i hai ih =>
      intro hi
      have hnot : ¬ keep i = true := fun h => by have := (hkeep i).1 h; omega
      rw [rank_succ, if_neg hnot, ih (by omega), Nat.add_zero]
  refine ⟨hlow, fun i hi => ?_⟩
  induction i, hi using Nat.le_induction with
  | base =>
    rw [hgap b hab (Nat.le_refl b)]
    omega
  | succ i hi ih =>
    rw [rank_succ, if_pos ((hkeep i).2 (.inr hi))]
    omega

/-- What is left of an array without the places behind those of another one. -/
theorem compact_of_gap {g : α → α} {xs ys : Array α} {d : α} (hsize : xs.size ≤ ys.size)
    (hkeep : ∀ i, keep i = true ↔ i < xs.size ∨ ys.size ≤ i)
    (hget : ∀ i < xs.size, ys.getD i d = xs.getD i d)
    (hg : ∀ i < xs.size, g (xs.getD i d) = xs.getD i d) : compact g keep ys = xs := by
  obtain ⟨hlow, hhigh⟩ := rank_of_gap hsize hkeep
  have hcompact : (compact g keep ys).size = xs.size := by
    have hend := hhigh ys.size (Nat.le_refl _)
    rw [size_compact]
    omega
  refine Array.ext_getElem? fun i => ?_
  by_cases hi : i < xs.size
  · have hi' := getElem?_compact (g := g) ((hkeep i).2 (.inl hi)) ys
    have hys : i < ys.size := Nat.lt_of_lt_of_le hi hsize
    rw [hlow i (Nat.le_of_lt hi)] at hi'
    rw [hi', Array.getElem?_eq_getElem hi, Array.getElem?_eq_getElem hys, Option.map_some,
      Array.getElem_eq_getD d, Array.getElem_eq_getD d, hget i hi, hg i hi]
  · rw [Array.getElem?_eq_none (by omega), Array.getElem?_eq_none (by omega)]

theorem map_eq_self {g : α → α} {xs : Array α} {d : α}
    (hg : ∀ i < xs.size, g (xs.getD i d) = xs.getD i d) : xs.map g = xs := by
  refine Array.ext (Array.size_map ..) fun i _ hi => ?_
  rw [Array.getElem_map, Array.getElem_eq_getD d, hg i hi]

end

/-! ## Values that refer to the heap -/

/-- A value that refers to the heap. -/
def Value.isReference : Value → Bool
  | .function _ | .class_ _ | .instance_ _ => true
  | .number _ | .string _ | .bool _ | .nil | .native _ => false

theorem Literal.isReference_value (l : Literal) : l.value.isReference = false := by
  cases l <;> rfl

theorem addition_isReference {a b r : Value} (h : addition a b = .ok r) :
    r.isReference = false := by
  unfold addition at h
  split at h <;> cases h <;> rfl

/-- What an operator gives does not refer to the heap. -/
theorem applyUnary_isReference {op : Token} {v r : Value} (h : applyUnary op v = .ok r) :
    r.isReference = false := by
  unfold applyUnary at h
  split at h <;> cases h <;> rfl

theorem applyBinary_isReference {op : Token} {a b r : Value} (h : applyBinary op a b = .ok r) :
    r.isReference = false := by
  unfold applyBinary at h
  cases hn : numericOperands op a b with
  | error fault =>
    simp only [hn, bind, Except.bind] at h
    split at h
    case h_1 => exact addition_isReference h
    all_goals cases h <;> rfl
  | ok p =>
    simp only [hn, bind, Except.bind] at h
    split at h
    case h_1 => exact addition_isReference h
    all_goals cases h <;> rfl

/-! ## What is left out -/

/-- Frames and functions that are left out of a heap. The frames of flat blocks are left out.
Other things may be left out only if they are there already: frames before `firstFrame` and
functions before `firstFunction`. The distances that are recorded for nodes are those of the heap
as it is, and there are others for the heap without what is left out. -/
structure Thinning where
  flat : List Stmt → Bool
  skips : FrameId → Bool
  drops : FunctionId → Bool
  firstFrame : FrameId
  firstFunction : FunctionId
  source : Locals
  target : Locals
  global : skips globalFrame = false
  kept : ∀ f, firstFunction ≤ f → drops f = false
  quiet : Flattens flat

namespace Thinning

variable (S : Thinning)

/-- The place of a frame among those that are kept. -/
def frame (i : FrameId) : FrameId := rank (fun i => !S.skips i) i

def function (f : FunctionId) : FunctionId := rank (fun f => !S.drops f) f

/-- A value, where functions have other places. -/
def value : Value → Value
  | .function f => .function (S.function f)
  | v => v

def chain (c : Chain) : Chain := (c.filter fun i => !S.skips i).map S.frame

def closure (c : Closure) : Closure := { c with chain := S.chain c.chain }

def classObject (c : ClassObject) : ClassObject :=
  { c with methods := c.methods.map S.closure, fields := c.fields.map S.value }

def inst (i : Instance) : Instance := { i with fields := i.fields.map S.value }

/-- A member, where functions and frames have other places. -/
def member : Member → Member
  | .field v => .field (S.value v)
  | .method c => .method (S.closure c)

/-- What a call may run, where frames have other places. -/
def callable : Callable → Callable
  | .closure c => .closure (S.closure c)
  | .native f => .native f
  | .constructor c => .constructor c

def frames (fs : Frames) : Frames := ⟨compact (Table.map S.value) (fun i => !S.skips i) fs.cells⟩

/-- A heap without what is left out. -/
def heap (h : Heap) : Heap where
  frames := S.frames h.frames
  functions := compact S.closure (fun f => !S.drops f) h.functions
  classes := h.classes.map S.classObject
  instances := h.instances.map S.inst

/-- A machine without what is left out, and with the distances for that. -/
def machine (m : Machine) : Machine :=
  { m with heap := S.heap m.heap, chain := S.chain m.chain, locals := S.target }

/-! ## Values -/

/-- A value that is no function that is left out. -/
def Holds (v : Value) : Prop := ∀ f, v = .function f → S.drops f = false

variable {S} {v w : Value}

@[simp] theorem type_value : (S.value v).type = v.type := by cases v <;> rfl

@[simp] theorem isTruthy_value : (S.value v).isTruthy = v.isTruthy := by cases v <;> rfl

theorem function_inj {f g : FunctionId} (hf : S.drops f = false) (hg : S.drops g = false) :
    S.function f = S.function g ↔ f = g :=
  rank_inj (by simpa using hf) (by simpa using hg)

theorem equals_value (hv : S.Holds v) (hw : S.Holds w) :
    (S.value v).equals (S.value w) = v.equals w := by
  cases v with
  | function f =>
    cases w with
    | function g =>
      rw [Bool.eq_iff_iff]
      simp [value, Value.equals, function_inj (hv f rfl) (hw g rfl)]
    | _ => rfl
  | _ => cases w <;> rfl

theorem holds_of_isReference (h : v.isReference = false) : S.Holds v := by
  rintro f rfl
  cases h

theorem value_of_isReference (h : v.isReference = false) : S.value v = v := by
  cases v with
  | function f => cases h
  | _ => rfl

theorem numericOperands_value (op : Token) :
    numericOperands op (S.value v) (S.value w) = numericOperands op v w := by
  cases v <;> cases w <;> rfl

theorem addition_value : addition (S.value v) (S.value w) = addition v w := by
  cases v <;> cases w <;> rfl

theorem applyUnary_value (op : Token) : applyUnary op (S.value v) = applyUnary op v := by
  simp only [applyUnary]
  cases op.kind with
  | symbol s => cases s <;> cases v <;> rfl
  | _ => rfl

theorem applyBinary_value (op : Token) (hv : S.Holds v) (hw : S.Holds w) :
    applyBinary op (S.value v) (S.value w) = applyBinary op v w := by
  simp only [applyBinary, numericOperands_value, addition_value, equals_value hv hw]

/-! ## Reading a heap -/

section

variable {h : Heap} {i : FrameId} {f : FunctionId}

theorem frame_frames (fs : Frames) (hi : S.skips i = false) :
    (S.frames fs).frame (S.frame i) = (fs.frame i).map S.value := by
  have hget : (compact (Table.map S.value) (fun i => !S.skips i) fs.cells)[S.frame i]? =
      fs.cells[i]?.map (Table.map S.value) := getElem?_compact (by simpa using hi) fs.cells
  have hempty : (∅ : Frame) = Table.map S.value ∅ := rfl
  simp only [Frames.frame, frames, Array.getD_eq_getD_getElem?, hget]
  rw [hempty, Option.getD_map]
  rfl

theorem function_heap (hf : S.drops f = false) :
    (S.heap h).function (S.function f) = S.closure (h.function f) := by
  have hget : (compact S.closure (fun f => !S.drops f) h.functions)[S.function f]? =
      h.functions[f]?.map S.closure := getElem?_compact (by simpa using hf) h.functions
  simp only [Heap.function, heap, Array.getD_eq_getD_getElem?, hget]
  have hdefault : (default : Closure) = S.closure default := rfl
  rw [hdefault, Option.getD_map]
  rfl

@[simp] theorem cls_heap (c : ClassId) : (S.heap h).cls c = S.classObject (h.cls c) := by
  have hdefault : (default : ClassObject) = S.classObject default := rfl
  simp only [Heap.cls, heap, Array.getD_eq_getD_getElem?, Array.getElem?_map]
  rw [hdefault, Option.getD_map]
  rfl

@[simp] theorem inst_heap (i : InstanceId) : (S.heap h).inst i = S.inst (h.inst i) := by
  have hdefault : (default : Instance) = S.inst default := rfl
  simp only [Heap.inst, heap, Array.getD_eq_getD_getElem?, Array.getElem?_map]
  rw [hdefault, Option.getD_map]
  rfl

@[simp] theorem lineage_heap (c : ClassId) : (S.heap h).lineage c = h.lineage c := by
  simp [Heap.lineage, classObject]

theorem findMethod?_heap (classes : List ClassId) (name : String) :
    (S.heap h).findMethod? classes name = (h.findMethod? classes name).map S.closure := by
  simp only [Heap.findMethod?, cls_heap, classObject, Table.get?_map, List.map_findSome?]
  rfl

theorem classField?_heap (c : ClassId) (name : String) :
    (S.heap h).classField? c name = (h.classField? c name).map S.value := by
  simp only [Heap.classField?, lineage_heap, cls_heap, classObject, Table.get?_map,
    List.map_findSome?]
  rfl

theorem member?_heap (start : ClassId) (i : InstanceId) (name : String) :
    (S.heap h).member? start i name = (h.member? start i name).map S.member := by
  unfold Heap.member?
  rw [inst_heap, inst, Table.get?_map]
  cases (h.inst i).fields.get? name with
  | some v => rfl
  | none =>
    simp only [Option.map_none, lineage_heap, findMethod?_heap]
    cases h.findMethod? (h.lineage start) name <;> rfl

theorem initializer?_heap (c : ClassId) :
    (S.heap h).initializer? c = (h.initializer? c).map S.closure := by
  rw [Heap.initializer?, lineage_heap, findMethod?_heap]
  rfl

theorem callable?_heap (hv : S.Holds v) :
    (S.heap h).callable? (S.value v) = (h.callable? v).map S.callable := by
  cases v with
  | function f => simp [Heap.callable?, value, callable, function_heap (hv f rfl)]
  | _ => rfl

theorem arity_heap (f : Callable) : (S.heap h).arity (S.callable f) = h.arity f := by
  cases f with
  | closure c => rfl
  | native f => rfl
  | constructor c =>
    simp only [Heap.arity, callable, initializer?_heap]
    cases h.initializer? c <;> rfl

theorem text_heap (hv : S.Holds v) : (S.heap h).text (S.value v) = h.text v := by
  cases v with
  | function f => simp [Heap.text, value, function_heap (hv f rfl), closure]
  | class_ c => simp [Heap.text, value, classObject]
  | instance_ i => simp [Heap.text, value, classObject, inst]
  | bool b => cases b <;> rfl
  | _ => rfl

end

/-! ## Changing a heap -/

section

variable {h : Heap} {i : FrameId}

/-- The place of a frame that is made and kept. -/
theorem frame_next : S.frame h.frames.next = (S.heap h).frames.next := by
  simp [frame, heap, frames, Frames.next, size_compact]

/-- The place of a function that is made. -/
theorem function_size : S.function h.functions.size = (S.heap h).functions.size := by
  simp [function, heap, size_compact]

theorem newFrame_heap (frame : Frame) (hkeep : S.skips h.frames.next = false) :
    (S.heap h).newFrame (frame.map S.value) =
      (S.frame h.frames.next, S.heap (h.newFrame frame).2) := by
  have hsize : S.skips h.frames.cells.size = false := hkeep
  simp only [Heap.newFrame, frame_next, Prod.mk.injEq, true_and]
  simp [heap, frames, Frames.push, compact_push, hsize]

/-- A frame that is made and left out. -/
theorem heap_newFrame_of_skips (frame : Frame) (hskips : S.skips h.frames.next = true) :
    S.heap (h.newFrame frame).2 = S.heap h := by
  have hsize : S.skips h.frames.cells.size = true := hskips
  simp [Heap.newFrame, heap, frames, Frames.push, compact_push, hsize]

theorem newFunction_heap (c : Closure) (hkeep : S.drops h.functions.size = false) :
    (S.heap h).newFunction (S.closure c) =
      (S.function h.functions.size, S.heap (h.newFunction c).2) := by
  simp only [Heap.newFunction, function_size, Prod.mk.injEq, true_and]
  simp [heap, compact_push, hkeep]

theorem newClass_heap (c : ClassObject) :
    (S.heap h).newClass (S.classObject c) = ((h.newClass c).1, S.heap (h.newClass c).2) := by
  simp [Heap.newClass, heap]

theorem newInstance_heap (c : ClassId) :
    (S.heap h).newInstance c = ((h.newInstance c).1, S.heap (h.newInstance c).2) := by
  simp [Heap.newInstance, heap, inst]

theorem bindReceiver_heap (c : Closure) (receiver : InstanceId)
    (hkeep : S.skips h.frames.next = false) :
    (S.heap h).bindReceiver (S.closure c) (.instance_ receiver) =
      (S.closure (h.bindReceiver c (.instance_ receiver)).1,
        S.heap (h.bindReceiver c (.instance_ receiver)).2) := by
  have hframe := newFrame_heap (S := S) ((∅ : Frame).insert "this" (.instance_ receiver)) hkeep
  rw [Table.map_insert, Table.map_empty] at hframe
  simp only [value] at hframe
  simp only [Heap.bindReceiver, hframe]
  simp [Heap.newFrame, closure, chain, hkeep]

theorem bindMethod_heap (c : Closure) (receiver : InstanceId)
    (hframe : S.skips h.frames.next = false) (hfunction : S.drops h.functions.size = false) :
    (S.heap h).bindMethod (S.closure c) (.instance_ receiver) =
      (S.function (h.bindMethod c (.instance_ receiver)).1,
        S.heap (h.bindMethod c (.instance_ receiver)).2) := by
  simp only [Heap.bindMethod, bindReceiver_heap c receiver hframe]
  exact newFunction_heap _ hfunction

theorem setField_heap (i : InstanceId) (name : String) (v : Value) :
    (S.heap h).setField i name (S.value v) = S.heap (h.setField i name v) := by
  simp only [Heap.setField, heap, Heap.mk.injEq, true_and]
  apply Array.ext
  · simp
  · intro j _ _
    simp only [Array.getElem_modify, Array.getElem_map]
    split <;> simp [inst, Table.map_insert]

theorem setClassField_heap (c : ClassId) (name : String) (v : Value) :
    (S.heap h).setClassField c name (S.value v) = S.heap (h.setClassField c name v) := by
  simp only [Heap.setClassField, heap, Heap.mk.injEq, true_and, and_true]
  apply Array.ext
  · simp
  · intro j _ _
    simp only [Array.getElem_modify, Array.getElem_map]
    split <;> simp [classObject, Table.map_insert]

theorem define_frames (fs : Frames) (name : String) (v : Value) (hi : S.skips i = false) :
    (S.frames fs).define (S.frame i) name (S.value v) = S.frames (fs.define i name v) := by
  simp only [Frames.define, frames, frame, Frames.mk.injEq]
  exact (compact_modify (by simpa using hi) (fun t => Table.map_insert t name v) fs.cells).symm

end

end Thinning

end Lox
