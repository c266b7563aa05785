import Lox.Proofs.Machine.Execution
import Lox.Proofs.Machine.Growth
import Lox.Proofs.Machine.Thinning

/-!
# Machines with places left out

Places may be left out of a machine if nothing that is kept refers to them. The frames of flat
blocks are different: chains go through them, but they have no names, and the distances recorded
for nodes lead past them.
-/

namespace Lox

namespace Thinning

variable (S : Thinning)

/-- The distances recorded for a node, with and without what is left out, are those of one scope,
which is not that of a flat block. A reference to the superclass needs the scope before it too. -/
structure Passes (v : Visit) : Prop where
  distance : S.target[v.id]? = S.source[v.id]?.map (Layers.thin S.flat v.layers)
  solid : ∀ d, S.source[v.id]? = some d → Layers.Solid S.flat v.layers d
  receiver : v.use = .superclass → ∀ d, S.source[v.id]? = some (d + 1) →
    Layers.Solid S.flat v.layers d

/-- Of the frames of a chain those of flat blocks are left out, and these are among the frames
that are made. -/
inductive Fits : List Layer → Chain → Prop
  | outside {chain : Chain} (h : ∀ i ∈ chain, S.skips i = false) : Fits [] chain
  | inner {l : Layer} {layers : List Layer} {id : FrameId} {outer : Chain}
      (hid : S.skips id = l.region.isFlat S.flat) (hmade : S.skips id = true → S.firstFrame ≤ id)
      (h : Fits layers outer) : Fits (l :: layers) (id :: outer)

/-- The chain of a function fits the scopes around its declaration. -/
def FitsClosure (c : Closure) : Prop :=
  ∃ cls layers, S.Fits layers c.chain ∧ (∀ v ∈ c.decl.visits cls layers, S.Passes v) ∧
    (c.isInitializer = true → Layers.Solid S.flat layers 0)

/-- The chain of a method fits the scopes around it, apart from that of its receiver. -/
def FitsMethod (c : Closure) : Prop :=
  ∃ cls layers, S.Fits layers c.chain ∧
    ∀ v ∈ c.decl.visits cls (.receiver c.decl :: layers), S.Passes v

/-- Nothing that is kept of a heap refers to what is left out, and the frames of flat blocks are
empty. -/
structure Sound (h : Heap) : Prop where
  firstFrame : S.firstFrame ≤ h.frames.size
  firstFunction : S.firstFunction ≤ h.functions.size
  hollow : ∀ i, S.skips i = true → S.firstFrame ≤ i → h.frames.frame i = ∅
  bound : ∀ i, S.skips i = false → ∀ name v,
    (h.frames.frame i).get? name = some v → S.Holds v
  functions : ∀ f, S.drops f = false → S.FitsClosure (h.function f)
  methods : ∀ c name k, (h.cls c).methods.get? name = some k → S.FitsMethod k
  statics : ∀ c name v, (h.cls c).fields.get? name = some v → S.Holds v
  fields : ∀ i name v, (h.inst i).fields.get? name = some v → S.Holds v

/-- Of the frames that are made those of flat blocks are left out. -/
def Knows (during : List Event) : Prop :=
  ∀ i region outer, .opened i region outer ∈ during → S.firstFrame ≤ i →
    S.skips i = region.isFlat S.flat

variable {S} {layers layers' : List Layer} {chain : Chain} {d : Nat}

/-! ## Chains -/

theorem Knows.mono {during during' : List Event} (h : S.Knows during) (hsub : during' ⊆ during) :
    S.Knows during' := fun i region outer he => h i region outer (hsub he)

theorem Fits.congr (h : S.Fits layers chain)
    (hregions : layers'.map Layer.region = layers.map Layer.region) : S.Fits layers' chain := by
  induction h generalizing layers' with
  | outside h =>
    obtain rfl : layers' = [] := by simpa using hregions
    exact .outside h
  | @inner l layers id outer hid hmade _ ih =>
    obtain ⟨l', layers'', rfl, hl, hrest⟩ := List.map_eq_cons_iff.1 hregions
    exact .inner (by rw [hid, hl]) hmade (ih hrest)

theorem Fits.made (h : S.Fits layers chain) {i : FrameId} (hi : i ∈ chain)
    (hskips : S.skips i = true) : S.firstFrame ≤ i := by
  induction h with
  | outside h => simp [h i hi] at hskips
  | inner _ hmade _ ih =>
    rcases List.mem_cons.1 hi with rfl | hi
    · exact hmade hskips
    · exact ih hi

/-- The innermost frame of a chain is kept outside of flat blocks. -/
theorem Fits.head (h : S.Fits layers chain) (hsolid : Layers.Solid S.flat layers 0) :
    ∀ i ∈ chain.head?, S.skips i = false := by
  intro i hi
  cases h with
  | outside h => exact h i (List.mem_of_mem_head? hi)
  | inner hid _ _ =>
    obtain rfl := Option.some.inj hi
    rw [hid]
    exact hsolid _ rfl

@[simp] theorem chain_nil : S.chain [] = [] := rfl

theorem chain_cons {i : FrameId} : S.chain (i :: chain) =
    if S.skips i then S.chain chain else S.frame i :: S.chain chain := by
  simp only [Thinning.chain, List.filter_cons]
  cases S.skips i <;> rfl

@[simp] theorem frame_global : S.frame globalFrame = globalFrame := rank_zero

theorem chain_global : S.chain globalChain = globalChain := by
  simp [globalChain, chain_cons, S.global]

/-- The frame at a distance, without what is left out. -/
theorem Fits.frameAt (h : S.Fits layers chain) (hsolid : Layers.Solid S.flat layers d)
    (name : String) :
    Frames.frameAt name (S.chain chain) (Layers.thin S.flat layers d) =
        (Frames.frameAt name chain d).map S.frame ∧
      ∀ i, Frames.frameAt name chain d = .ok i → S.skips i = false := by
  induction h generalizing d with
  | @outside chain h =>
    simp only [Layers.thin]
    clear hsolid
    induction chain generalizing d with
    | nil => exact ⟨rfl, fun _ h => by cases h⟩
    | cons i chain ih =>
      obtain ⟨hi, hchain⟩ := List.forall_mem_cons.1 h
      rw [chain_cons, hi]
      cases d with
      | zero => exact ⟨rfl, fun j hj => by cases hj; exact hi⟩
      | succ d => exact ih hchain
  | @inner l layers id outer hid _ _ ih =>
    rw [chain_cons, hid]
    cases d with
    | zero =>
      have hl := hsolid l rfl
      rw [hl]
      exact ⟨rfl, fun i hi => by cases hi; rw [hid, hl]⟩
    | succ d =>
      obtain ⟨heq, hkept⟩ := ih hsolid.tail
      refine ⟨?_, hkept⟩
      rw [Layers.thin]
      cases l.region.isFlat S.flat with
      | true => exact heq
      | false => exact heq

/-- The value of a name in the frame at a distance, without what is left out. -/
theorem Fits.getAt {h : Heap} (hfits : S.Fits layers chain) (hh : S.Sound h)
    (hsolid : Layers.Solid S.flat layers d) (name : String) :
    (S.heap h).frames.getAt (S.chain chain) (Layers.thin S.flat layers d) name =
        (h.frames.getAt chain d name).map S.value ∧
      ∀ v, h.frames.getAt chain d name = .ok v → S.Holds v := by
  obtain ⟨heq, hkept⟩ := hfits.frameAt hsolid name
  simp only [Frames.getAt, heq]
  cases hi : Frames.frameAt name chain d with
  | error fault => exact ⟨rfl, fun _ h => by cases h⟩
  | ok i =>
    have hframe := frame_frames h.frames (hkept i hi)
    simp only [bind, Except.bind, Except.map, heap, hframe, Table.get?_map]
    cases hv : (h.frames.frame i).get? name with
    | none => exact ⟨rfl, fun _ h => by cases h⟩
    | some v =>
      refine ⟨rfl, fun w hw => ?_⟩
      cases hw
      exact hh.bound i (hkept i hi) name v hv

/-- The value of a global name, without what is left out. -/
theorem Sound.get_global {h : Heap} (hh : S.Sound h) (name : String) :
    (S.heap h).frames.get name globalChain = (h.frames.get name globalChain).map S.value ∧
      ∀ v, h.frames.get name globalChain = .ok v → S.Holds v := by
  have hframe := frame_frames h.frames S.global
  rw [frame_global] at hframe
  simp only [globalChain, Frames.get, heap, hframe, Table.get?_map]
  cases hv : (h.frames.frame globalFrame).get? name with
  | none => exact ⟨rfl, fun _ h => by cases h⟩
  | some v =>
    refine ⟨rfl, fun w hw => ?_⟩
    cases hw
    exact hh.bound _ S.global name v hv

/-- The frame that has a name, without what is left out: a frame that is left out of a chain has
no names. -/
theorem Sound.holder {h : Heap} (hh : S.Sound h)
    (hmade : ∀ i ∈ chain, S.skips i = true → S.firstFrame ≤ i) (name : String) :
    (S.heap h).frames.holder name (S.chain chain) = (h.frames.holder name chain).map S.frame ∧
      ∀ i, h.frames.holder name chain = .ok i → S.skips i = false := by
  induction chain with
  | nil => exact ⟨rfl, nofun⟩
  | cons i chain ih =>
    obtain ⟨hi, hchain⟩ := List.forall_mem_cons.1 hmade
    rw [chain_cons]
    cases hskips : S.skips i with
    | true =>
      have hempty : (h.frames.frame i).contains name = false := by
        rw [hh.hollow i hskips (hi hskips)]
        rfl
      simpa [Frames.holder, hempty] using ih hchain
    | false =>
      have hframe := frame_frames h.frames hskips
      have hcontains : ((S.heap h).frames.frame (S.frame i)).contains name =
          (h.frames.frame i).contains name := by
        simp only [heap, hframe, Table.contains_map]
      simp only [Bool.false_eq_true, if_false, Frames.holder, hcontains]
      cases (h.frames.frame i).contains name with
      | true => exact ⟨rfl, fun j hj => by cases hj; exact hskips⟩
      | false => exact ih hchain

/-! ## Changes of the heap -/

namespace Sound

variable {h : Heap}

/-- A frame is made. If it is left out it is empty. -/
theorem newFrame (hh : S.Sound h) {frame : Frame}
    (hempty : S.skips h.frames.next = true → frame = ∅)
    (hframe : ∀ name v, frame.get? name = some v → S.Holds v) :
    S.Sound (h.newFrame frame).2 := by
  have hnew : ∀ i, (h.newFrame frame).2.frames.frame i =
      if i = h.frames.next then frame else h.frames.frame i := by
    intro i
    split
    · subst i
      exact Frames.frame_push_next h.frames frame
    · exact Frames.frame_push_of_ne frame ‹_›
  refine { hh with firstFrame := ?_, hollow := fun i hi hmade => ?_, bound := fun i hi => ?_ }
  · simpa [Heap.newFrame] using Nat.le_succ_of_le hh.firstFrame
  · rw [hnew]
    split
    · subst i
      exact hempty hi
    · exact hh.hollow i hi hmade
  · rw [hnew]
    split
    · exact hframe
    · exact hh.bound i hi

/-- A name is given a value in a frame that is kept. -/
theorem define (hh : S.Sound h) {id : FrameId} {v : Value} (hid : S.skips id = false)
    (hv : S.Holds v) (name : String) :
    S.Sound { h with frames := h.frames.define id name v } := by
  refine { hh with firstFrame := ?_, hollow := fun i hi hmade => ?_, bound := fun i hi x w hw => ?_ }
  · simpa using hh.firstFrame
  · have hne : i ≠ id := by
      rintro rfl
      simp [hid] at hi
    rw [Frames.frame_define_of_ne name v hne]
    exact hh.hollow i hi hmade
  · by_cases hlt : id < h.frames.size
    · rw [Frames.get?_define name x v hlt] at hw
      split at hw
      · cases hw
        exact hv
      · exact hh.bound i hi x w hw
    · have hsame : (h.frames.define id name v).frame i = h.frames.frame i := by
        by_cases hi : i = id
        · have hsize : ¬ id < h.frames.cells.size := hlt
          simp [Frames.frame, Frames.define, Array.getD, hi, hsize]
        · exact Frames.frame_define_of_ne name v hi
      rw [hsame] at hw
      exact hh.bound i hi x w hw

theorem newFunction (hh : S.Sound h) {c : Closure} (hc : S.FitsClosure c) :
    S.Sound (h.newFunction c).2 := by
  refine { hh with firstFunction := ?_, functions := fun f hf => ?_ }
  · simpa [Heap.newFunction] using Nat.le_succ_of_le hh.firstFunction
  · rw [Heap.function_newFunction]
    split
    · exact hc
    · exact hh.functions f hf

theorem newClass (hh : S.Sound h) {c : ClassObject}
    (hmethods : ∀ name k, c.methods.get? name = some k → S.FitsMethod k)
    (hfields : ∀ name v, c.fields.get? name = some v → S.Holds v) :
    S.Sound (h.newClass c).2 := by
  refine { hh with methods := fun i => ?_, statics := fun i => ?_ }
  · rw [Heap.cls_newClass]
    split
    · exact hmethods
    · exact hh.methods i
  · rw [Heap.cls_newClass]
    split
    · exact hfields
    · exact hh.statics i

theorem newInstance (hh : S.Sound h) (c : ClassId) : S.Sound (h.newInstance c).2 := by
  refine { hh with fields := fun i => ?_ }
  rw [Heap.inst_newInstance]
  split
  · exact nofun
  · exact hh.fields i

theorem setField (hh : S.Sound h) {v : Value} (hv : S.Holds v) (i : InstanceId) (name : String) :
    S.Sound (h.setField i name v) := by
  refine { hh with fields := fun j x w hw => ?_ }
  rw [Heap.inst_setField] at hw
  split at hw
  · rw [Table.get?_insert] at hw
    split at hw
    · cases hw
      exact hv
    · exact hh.fields j x w hw
  · exact hh.fields j x w hw

theorem setClassField (hh : S.Sound h) {v : Value} (hv : S.Holds v) (c : ClassId)
    (name : String) : S.Sound (h.setClassField c name v) := by
  refine { hh with methods := fun i x k hk => ?_, statics := fun i x w hw => ?_ }
  · rw [Heap.methods_setClassField] at hk
    exact hh.methods i x k hk
  · rw [Heap.cls_setClassField] at hw
    split at hw
    · rw [Table.get?_insert] at hw
      split at hw
      · cases hw
        exact hv
      · exact hh.statics i x w hw
    · exact hh.statics i x w hw

theorem findMethod? (hh : S.Sound h) {classes : List ClassId} {name : String} {k : Closure}
    (hk : h.findMethod? classes name = some k) : S.FitsMethod k := by
  obtain ⟨c, hc⟩ := Heap.exists_of_findMethod? hk
  exact hh.methods c name k hc

theorem classField? (hh : S.Sound h) {c : ClassId} {name : String} {v : Value}
    (hv : h.classField? c name = some v) : S.Holds v := by
  obtain ⟨d, -, hd⟩ := List.exists_of_findSome?_eq_some hv
  exact hh.statics d name v hd

end Sound

/-- A receiver is put in front of the chain of a method. -/
theorem FitsMethod.bind {c : Closure} (hc : S.FitsMethod c) {i : FrameId}
    (hi : S.skips i = false) : S.FitsClosure { c with chain := i :: c.chain } := by
  obtain ⟨cls, layers, hfits, hvisits⟩ := hc
  refine ⟨cls, .receiver c.decl :: layers, .inner hi (by simp [hi]) hfits, hvisits, fun _ l hl => ?_⟩
  obtain rfl := Option.some.inj hl
  rfl

/-! ## Results -/

variable (S)

/-- A machine that sees a chain and from which things may be left out. -/
structure At (chain : Chain) (m : Machine) : Prop where
  heap : S.Sound m.heap
  locals : m.locals = S.source
  chain : m.chain = chain

/-- A step has a result, and another step has the related one on the machine without what is left
out. -/
inductive Results {α α' : Type} (chain : Chain) (R : α → α' → Prop) :
    EStateM.Result Halt Machine α → EStateM.Result Halt Machine α' → Prop
  | ok {a : α} {a' : α'} {m : Machine} (ha : R a a') (hm : S.At chain m) :
      Results chain R (.ok a m) (.ok a' (S.machine m))
  | error {halt : Halt} {m : Machine} (hm : S.At chain m) :
      Results chain R (.error halt m) (.error halt (S.machine m))

/-- A value and the same value without what is left out. -/
def Values (v v' : Value) : Prop := v' = S.value v ∧ S.Holds v

theorem values_nil : S.Values .nil .nil := ⟨rfl, nofun⟩

/-- An end of a statement and the same end without what is left out. -/
inductive Completions : Completion → Completion → Prop
  | normal : Completions .normal .normal
  | returned {v v' : Value} (h : S.Values v v') : Completions (.returned v) (.returned v')

end Thinning

/-- The step `p'` does without what is left out what `p` does on the machine `m`. -/
def Thins {α α' : Type} (S : Thinning) (R : α → α' → Prop) (m : Machine) (p : Exec α)
    (p' : Exec α') (during : List Event) : Prop :=
  S.At m.chain m → S.Knows during → S.Results m.chain R (p m) (p' (S.machine m))

namespace Thins

open Exec

variable {α α' β β' : Type} {S : Thinning} {R : α → α' → Prop} {Q : β → β' → Prop} {m : Machine}
  {during : List Event}

/-- What is known of the machine and of the frames that are made may be used. -/
theorem of_at {p : Exec α} {p' : Exec α'}
    (h : S.At m.chain m → S.Knows during → Thins S R m p p' during) : Thins S R m p p' during :=
  fun hm hknows => h hm hknows hm hknows

theorem pure {a : α} {a' : α'} (h : R a a') : Thins S R m (pure a) (pure a') during :=
  fun hm _ => .ok h hm

theorem fail {t : Token} {fault : RuntimeFault} :
    Thins S R m (fail t fault) (fail t fault) during := fun hm _ => .error hm

theorem outOfFuel : Thins S R m (throw .outOfFuel) (throw .outOfFuel) during :=
  fun hm _ => .error hm

/-- One step and then another. -/
theorem bind {p : Exec α} {p' : Exec α'} {f : α → Exec β} {f' : α' → Exec β'} {events : Events}
    {next : α → Events} (hp : Thins S R m p p' (events m))
    (hf : ∀ a a' m', m'.chain = m.chain → R a a' → Thins S Q m' (f a) (f' a') (next a m')) :
    Thins S Q m (p >>= f) (p' >>= f') (Trace.andThen p events next m) := by
  intro hm hknows
  have hresult := hp hm (hknows.mono (List.subset_append_left _ _))
  rw [Trace.andThen] at hknows
  simp only [Bind.bind, EStateM.bind]
  generalize p m = r at hresult hknows
  generalize p' (S.machine m) = r' at hresult
  cases hresult with
  | error hm' => exact .error hm'
  | @ok a a' m' ha hm' =>
    have hnext := hf a a' m' hm'.chain ha
    rw [Thins, hm'.chain] at hnext
    exact hnext hm' (hknows.mono (List.subset_append_right _ _))

/-- Two steps of which at most one has events. -/
theorem bind_silent {p : Exec α} {p' : Exec α'} {f : α → Exec β} {f' : α' → Exec β'}
    (hp : Thins S R m p p' during)
    (hf : ∀ a a' m', m'.chain = m.chain → R a a' → Thins S Q m' (f a) (f' a') during) :
    Thins S Q m (p >>= f) (p' >>= f') during := by
  intro hm hknows
  have hresult := hp hm hknows
  simp only [Bind.bind, EStateM.bind]
  generalize p m = r at hresult
  generalize p' (S.machine m) = r' at hresult
  cases hresult with
  | error hm' => exact .error hm'
  | @ok a a' m' ha hm' =>
    have hnext := hf a a' m' hm'.chain ha
    rw [Thins, hm'.chain] at hnext
    exact hnext hm' hknows

theorem map {p : Exec α} {p' : Exec α'} {g : α → β} {g' : α' → β'} (hp : Thins S R m p p' during)
    (hg : ∀ a a', R a a' → Q (g a) (g' a')) : Thins S Q m (g <$> p) (g' <$> p') during :=
  bind_silent hp fun a a' _ _ ha => pure (hg a a' ha)

theorem get_bind {f : Machine → Exec β} {f' : Machine → Exec β'}
    (h : Thins S Q m (f m) (f' (S.machine m)) during) :
    Thins S Q m (get >>= f) (get >>= f') during := h

theorem ofExcept {t : Token} {r : Except RuntimeFault α} {g : α → α'}
    (h : ∀ a, r = .ok a → R a (g a)) :
    Thins S R m (ofExcept t r) (ofExcept t (r.map g)) during := by
  cases r with
  | ok a => exact pure (h a rfl)
  | error fault => exact fail

/-- A step that changes no more than the heap. -/
theorem withHeap {f : Heap → α × Heap} {f' : Heap → α' × Heap}
    (h : S.At m.chain m → S.Knows during → ∃ a',
      f' (S.heap m.heap) = (a', S.heap (f m.heap).2) ∧ R (f m.heap).1 a' ∧ S.Sound (f m.heap).2) :
    Thins S R m (withHeap f) (withHeap f') during := by
  intro hm hknows
  obtain ⟨a', heq, ha, hsound⟩ := h hm hknows
  have hstep : Exec.withHeap f' (S.machine m) =
      .ok (f' (S.heap m.heap)).1 { S.machine m with heap := (f' (S.heap m.heap)).2 } := rfl
  rw [hstep, heq]
  exact .ok (m := { m with heap := (f m.heap).2 }) ha ⟨hsound, hm.locals, rfl⟩

theorem modifyHeap {f f' : Machine → Heap}
    (h : S.At m.chain m → f' (S.machine m) = S.heap (f m) ∧ S.Sound (f m)) :
    Thins S (fun _ _ => True) m (modify fun m => { m with heap := f m } : Exec Unit)
      (modify fun m => { m with heap := f' m } : Exec Unit) during := by
  intro hm _
  obtain ⟨heq, hsound⟩ := h hm
  have hstep : (modify fun m => { m with heap := f' m } : Exec Unit) (S.machine m) =
      .ok () { S.machine m with heap := f' (S.machine m) } := rfl
  rw [hstep, heq]
  exact .ok (m := { m with heap := f m }) trivial ⟨hsound, hm.locals, rfl⟩

theorem defineIn {id : FrameId} {name : String} {v v' : Value} (hid : S.skips id = false)
    (hv : S.Values v v') :
    Thins S (fun _ _ => True) m (defineIn id name v) (defineIn (S.frame id) name v') during := by
  obtain ⟨rfl, hv⟩ := hv
  refine modifyHeap fun hm => ⟨?_, hm.heap.define hid hv name⟩
  simp only [Thinning.machine, Thinning.heap, Thinning.define_frames _ _ _ hid]

theorem writeLine {v v' : Value} (hv : S.Values v v') :
    Thins S (fun _ _ => True) m (writeLine v) (writeLine v') during := by
  obtain ⟨rfl, hv⟩ := hv
  intro hm _
  simp only [Exec.writeLine, Thinning.machine, Thinning.text_heap hv]
  split
  · exact .ok (m := { m with sink := _ }) trivial ⟨hm.heap, hm.locals, rfl⟩
  · exact .error (m := { m with sink := _ }) ⟨hm.heap, hm.locals, rfl⟩

theorem readClock : Thins S S.Values m readClock readClock during := fun hm _ =>
  .ok (m := { m with clock := _ }) ⟨rfl, Thinning.holds_of_isReference rfl⟩
    ⟨hm.heap, hm.locals, rfl⟩

/-- A run in another chain. -/
theorem inChain {chain : Chain} {p : Exec α} {p' : Exec α'}
    (h : Thins S R { m with chain := chain } p p' during) :
    Thins S R m (inChain chain p) (inChain (S.chain chain) p') during := by
  intro hm hknows
  have hresult := h ⟨hm.heap, hm.locals, rfl⟩ hknows
  have hmachine : { S.machine m with chain := S.chain chain } =
      S.machine { m with chain := chain } := rfl
  simp only [Exec.inChain, hmachine]
  generalize p { m with chain := chain } = r at hresult
  generalize p' (S.machine { m with chain := chain }) = r' at hresult
  cases hresult with
  | @error _ m' hm' =>
    exact .error (m := { m' with chain := m.chain }) ⟨hm'.heap, hm'.locals, rfl⟩
  | @ok _ _ m' ha hm' =>
    exact .ok (m := { m' with chain := m.chain }) ha ⟨hm'.heap, hm'.locals, rfl⟩

/-- A run one call deeper. -/
theorem nested {p : Exec α} {p' : Exec α'}
    (h : Thins S R { m with depth := m.depth + 1 } p p' during) :
    Thins S R m (nested p) (nested p') during := by
  intro hm hknows
  have hresult := h ⟨hm.heap, hm.locals, rfl⟩ hknows
  have hmachine : { S.machine m with depth := (S.machine m).depth + 1 } =
      S.machine { m with depth := m.depth + 1 } := rfl
  simp only [Exec.nested, hmachine]
  generalize p { m with depth := m.depth + 1 } = r at hresult
  generalize p' (S.machine { m with depth := m.depth + 1 }) = r' at hresult
  cases hresult with
  | @error _ m' hm' =>
    exact .error (m := { m' with depth := m'.depth - 1 }) ⟨hm'.heap, hm'.locals, hm'.chain⟩
  | @ok _ _ m' ha hm' =>
    exact .ok (m := { m' with depth := m'.depth - 1 }) ha ⟨hm'.heap, hm'.locals, hm'.chain⟩

end Thins

end Lox
