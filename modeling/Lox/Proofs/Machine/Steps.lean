import Lox.Proofs.Machine.Closed
import Lox.Proofs.Machine.Deeds

/-!
# Steps of a heap

Whatever a program does, it changes the heap in steps of few kinds: frames and functions are added
and names are given values, a class or an instance is made, or a value is stored in a property. Each
step refers only to what is there, so it keeps a heap closed. A new frame goes in front of a chain
that is seen, which makes one more chain that is seen. The steps between two heaps are labelled with
the deeds that they are.
-/

namespace Lox

abbrev Seen := Chain → Prop

/-- A new frame goes in front of a chain. -/
def Seen.push (S : Seen) (i : FrameId) (chain : Chain) : Seen := fun c => S c ∨ c = i :: chain

/-- A heap is closed, and of the chains that are seen are those of its functions and methods. -/
structure Heap.Planted (h : Heap) (S : Seen) : Prop where
  closed : h.Closed
  rooted : ∀ c, S c → Rooted h.frames.size c
  functions : ∀ f < h.functions.size, S (h.function f).chain
  methods : ∀ c, ∀ k ∈ (h.cls c).methods.values, S k.chain

/-- Store a value in a property. -/
def Heap.write (h : Heap) (name : String) (v : Value) : Owner → Heap
  | .instance_ i => h.setField i name v
  | .class_ c => h.setClassField c name v

/-- The class that a declaration makes. -/
def Declaration.object (d : Declaration) (h : Heap) (fields : Table Value) : ClassObject where
  name := d.decl.name.lexeme
  ancestors := (d.superclass.map h.lineage).getD []
  methods := methodTable d.chain d.decl.methods
  fields := fields

namespace FunctionDecls

variable {first f : FunctionId} {name : String}

theorem lastPlace?_cons (first : FunctionId) (d : FunctionDecl) (ds : List FunctionDecl)
    (name : String) : lastPlace? first (d :: ds) name =
      (lastPlace? (first + 1) ds name).or (if d.name.lexeme = name then some first else none) := by
  rw [lastPlace?, lastPlace?, List.zipIdx_cons, List.reverse_cons, List.find?_append, Option.map_or]
  by_cases hname : d.name.lexeme = name
  · simp [hname]
  · simp [hname]

end FunctionDecls

namespace Heap

/-- The functions from the place `first` on are the given ones, which see a chain. -/
def HasFunctions (h : Heap) (chain : Chain) (first : FunctionId) (ds : List FunctionDecl) : Prop :=
  ∀ k d, ds[k]? = some d →
    first + k < h.functions.size ∧ h.function (first + k) = ⟨d, chain, false⟩

/-- A step of a heap, the deeds that it is, and the chains that are seen before and after it. -/
inductive Step (h : Heap) (S : Seen) : List Deed → Heap → Seen → Prop
  /-- Frames are given values. -/
  | frames {frames : Frames} (hsize : frames.size = h.frames.size)
      (hbound : ∀ i, ∀ v ∈ (frames.frame i).values, v ∈ (h.frames.frame i).values ∨ h.Has v) :
      Step h S [] { h with frames := frames } S
  | frame {frame : Frame} {chain : Chain} (hchain : S chain)
      (hframe : ∀ v ∈ frame.values, h.Has v) :
      Step h S [] (h.newFrame frame).2 (S.push h.frames.size chain)
  | function {c : Closure} (hc : S c.chain) : Step h S [] (h.newFunction c).2 S
  /-- A class is made. The functions of its static methods are there already. -/
  | declared {d : Declaration} {fields : Table Value}
      (hsuperclass : ∀ c ∈ d.superclass, c < h.classes.size)
      (hchain : S d.chain)
      (hvalues : ∀ v ∈ fields.values, h.Has v)
      (hfields : ∀ name, fields.get? name = (d.static? name).map .function)
      (hstatics : h.HasFunctions d.chain d.first d.decl.statics) :
      Step h S [.declared d] (h.newClass (d.object h fields)).2 S
  | made {c : ClassId} (hc : c < h.classes.size) : Step h S [.made c] (h.newInstance c).2 S
  | wrote {owner : Owner} {name : Token} {v : Value} {m : Machine} (hm : m.heap = h)
      (howner : h.Has owner.value) (hv : h.Has v) :
      Step h S [.wrote owner name v m] (h.write name.lexeme v owner) S
  | read {owner : Owner} {name : Token} {m : Machine} (hm : m.heap = h)
      (howner : h.Has owner.value) : Step h S [.read owner name m] h S

/-- Several steps of a heap, the deeds that they are, and the chains that are seen. -/
inductive Steps (h : Heap) (S : Seen) : List Deed → Heap → Seen → Prop
  | refl : Steps h S [] h S
  | step {h' h'' : Heap} {S' S'' : Seen} {ds ds' : List Deed} (hs : Steps h S ds h' S')
      (hstep : h'.Step S' ds' h'' S'') : Steps h S (ds ++ ds') h'' S''

variable {h h' h'' : Heap} {S S' S'' : Seen} {ds ds' : List Deed}

theorem Step.define (id : FrameId) (name : String) {v : Value} (hv : h.Has v) :
    h.Step S [] { h with frames := h.frames.define id name v } S := by
  refine .frames (by simp) fun i w hw => ?_
  by_cases hi : i = id
  · subst hi
    by_cases hlt : i < h.frames.size
    · rw [Frames.frame_define_self name v hlt] at hw
      rcases Table.mem_values_insert hw with rfl | hw
      · exact .inr hv
      · exact .inl hw
    · have hnone : ¬ i < h.frames.cells.size := hlt
      simp [Frames.frame, Frames.define, Array.getD, hnone] at hw
      cases hw
  · rw [Frames.frame_define_of_ne name v hi] at hw
    exact .inl hw

/-! ## What steps keep -/

theorem within_write (h : Heap) (name : String) (v : Value) (owner : Owner) :
    h.Within (h.write name v owner) := by
  cases owner with
  | instance_ i => exact h.within_setField i name v
  | class_ c => exact h.within_setClassField c name v

theorem Step.within (hs : h.Step S ds h' S') : h.Within h' := by
  cases hs with
  | frames hsize => exact { Within.refl h with frames := Nat.le_of_eq hsize.symm }
  | frame => exact { Within.refl h with frames := by simp [newFrame] }
  | function => exact h.within_newFunction _
  | declared => exact h.within_newClass _
  | made => exact h.within_newInstance _
  | wrote => exact h.within_write _ _ _
  | read => exact .refl h

theorem Step.seen (hs : h.Step S ds h' S') {c : Chain} (hc : S c) : S' c := by
  cases hs with
  | frame => exact .inl hc
  | _ => exact hc

theorem Closed.newFrame (hh : h.Closed) {frame : Frame} (hframe : ∀ v ∈ frame.values, h.Has v) :
    (h.newFrame frame).2.Closed := by
  refine hh.changeFrames (by simp) fun i v hv => ?_
  by_cases hi : i = h.frames.size
  · subst hi
    have hnew := Frames.frame_push_next h.frames frame
    exact .inr (hframe v (hnew ▸ hv))
  · rw [Frames.frame_push_of_ne frame hi] at hv
    exact .inl hv

/-- A step adds no reference to a place that is not there. -/
theorem Step.closed (hs : h.Step S ds h' S') (hh : h.Planted S) : h'.Closed := by
  cases hs with
  | frames hsize hbound => exact hh.closed.changeFrames (Nat.le_of_eq hsize.symm) hbound
  | frame _ hframe => exact hh.closed.newFrame hframe
  | function hc => exact hh.closed.newFunction (hh.rooted _ hc)
  | @declared d fields hsuperclass hchain hvalues =>
    refine hh.closed.newClass (fun k hk => ?_) hvalues fun c hc => ?_
    · rcases Table.mem_values_foldl_insert hk with hk | ⟨f, -, rfl⟩
      · cases hk
      · exact hh.rooted _ hchain
    · rw [Declaration.object] at hc
      cases hsuper : d.superclass with
      | none => simp [hsuper] at hc
      | some c' =>
        rw [hsuper] at hc
        exact hh.closed.lt_of_mem_lineage (hsuperclass c' hsuper) c hc
  | made hc => exact hh.closed.newInstance hc
  | @wrote owner _ _ _ _ _ hv =>
    cases owner with
    | instance_ i => exact hh.closed.setField hv i _
    | class_ c => exact hh.closed.setClassField hv c _
  | read => exact hh.closed

/-- Functions and methods that a step adds see chains that are seen. -/
theorem Step.planted (hs : h.Step S ds h' S') (hh : h.Planted S) : h'.Planted S' := by
  have hclosed := hs.closed hh
  cases hs with
  | frames hsize => exact { hh with closed := hclosed, rooted := fun c hc => hsize ▸ hh.rooted c hc }
  | @frame frame chain hchain =>
    refine ⟨hclosed, ?_, fun f hf => .inl (hh.functions f hf), fun c k hk => .inl (hh.methods c k hk)⟩
    rintro c (hc | rfl)
    · exact (hh.rooted c hc).mono (by simp [newFrame])
    · exact (hh.rooted chain hchain).newFrame frame
  | function hc =>
    refine { hh with closed := hclosed, functions := fun f hf => ?_ }
    rw [function_newFunction]
    split
    · exact hc
    · next hne =>
      have hlt : f < h.functions.size + 1 := by simpa [Heap.newFunction] using hf
      exact hh.functions f (Nat.lt_of_le_of_ne (Nat.le_of_lt_succ hlt) hne)
  | declared _ hchain =>
    refine { hh with closed := hclosed, methods := fun c => ?_ }
    rw [cls_newClass]
    split
    · intro k hk
      rcases Table.mem_values_foldl_insert hk with hk | ⟨f, -, rfl⟩
      · cases hk
      · exact hchain
    · exact hh.methods c
  | made | read => exact { hh with closed := hclosed }
  | @wrote owner =>
    cases owner with
    | instance_ i => exact { hh with closed := hclosed }
    | class_ c =>
      exact { hh with
        closed := hclosed
        methods := fun d k hk => hh.methods d k (by rwa [write, methods_setClassField] at hk) }

/-- A step is at most one deed. -/
theorem Step.eq_nil_or_singleton (hs : h.Step S ds h' S') : ds = [] ∨ ∃ deed, ds = [deed] := by
  cases hs with
  | frames | frame | function => exact .inl rfl
  | declared | made | wrote | read => exact .inr ⟨_, rfl⟩

theorem Step.single (hs : h.Step S ds h' S') : h.Steps S ds h' S' := Steps.step .refl hs

namespace Steps

theorem trans (hs : h.Steps S ds h' S') (hs' : h'.Steps S' ds' h'' S'') :
    h.Steps S (ds ++ ds') h'' S'' := by
  induction hs' with
  | refl =>
    rw [List.append_nil]
    exact hs
  | step _ hstep ih =>
    rw [← List.append_assoc]
    exact ih.step hstep

theorem within (hs : h.Steps S ds h' S') : h.Within h' := by
  induction hs with
  | refl => exact .refl h
  | step _ hstep ih => exact ih.trans hstep.within

theorem seen (hs : h.Steps S ds h' S') {c : Chain} (hc : S c) : S' c := by
  induction hs with
  | refl => exact hc
  | step _ hstep ih => exact hstep.seen ih

theorem planted (hs : h.Steps S ds h' S') (hh : h.Planted S) : h'.Planted S' := by
  induction hs with
  | refl => exact hh
  | step _ hstep ih => exact hstep.planted ih

/-- Each deed happens on a heap that the deeds before it lead to. -/
theorem split (hs : h.Steps S ds h' S') {before later : List Deed} {deed : Deed}
    (hds : ds = before ++ deed :: later) :
    ∃ h₁ S₁ h₂ S₂, h.Steps S before h₁ S₁ ∧ h₁.Step S₁ [deed] h₂ S₂ := by
  induction hs generalizing later with
  | refl => exact absurd hds (by simp)
  | @step h₁ h₂ S₁ S₂ ds ds' hsteps hstep ih =>
    obtain rfl | ⟨last, rfl⟩ := hstep.eq_nil_or_singleton
    · exact ih (by simpa using hds)
    · obtain rfl | ⟨later, last', rfl⟩ := List.eq_nil_or_concat later
      · obtain ⟨rfl, heq⟩ := List.append_inj' hds rfl
        cases heq
        exact ⟨h₁, S₁, h₂, S₂, hsteps, hstep⟩
      · have hsplit : ds ++ [last] = (before ++ deed :: later) ++ [last'] := by simpa using hds
        exact ih (List.append_inj' hsplit rfl).1

end Steps

end Heap

/-! ## Machines -/

/-- The heap of a machine is planted, and the chain of the machine is seen. -/
structure Machine.Planted (m : Machine) (S : Seen) : Prop where
  heap : m.heap.Planted S
  chain : S m.chain

theorem Heap.Planted.findMethod? {h : Heap} {S : Seen} (hh : h.Planted S) {classes : List ClassId}
    {name : String} {k : Closure} (hk : h.findMethod? classes name = some k) : S k.chain := by
  obtain ⟨d, -, hd⟩ := List.exists_of_findSome?_eq_some hk
  exact hh.methods d k (Table.mem_values_of_get? hd)

namespace Machine

variable {m m' : Machine} {S S' : Seen} {ds : List Deed}

theorem Planted.closed (hm : m.Planted S) : m.Closed :=
  ⟨hm.heap.closed, hm.heap.rooted m.chain hm.chain⟩

theorem Closed.planted (hm : m.Closed) : m.Planted (Rooted m.heap.frames.size) :=
  ⟨⟨hm.heap, fun _ => id, hm.heap.functions, hm.heap.methods⟩, hm.chain⟩

theorem Planted.of_steps (hm : m.Planted S) (hsteps : m.heap.Steps S ds m'.heap S')
    (hchain : m'.chain = m.chain) : m'.Planted S' :=
  ⟨hsteps.planted hm.heap, hchain ▸ hsteps.seen hm.chain⟩

end Machine

/-- What a step of a machine leads to: the heap has changed in steps whose deeds are the given ones,
the chain is the same, and the relation holds of the result. -/
inductive Leads {α : Type} (S : Seen) (R : Seen → Heap → α → Prop) (m : Machine) (ds : List Deed) :
    EStateM.Result Halt Machine α → Prop
  | ok {a : α} {n : Machine} {S' : Seen} (hsteps : m.heap.Steps S ds n.heap S')
      (hchain : n.chain = m.chain) (ha : R S' n.heap a) : Leads S R m ds (.ok a n)
  | error {halt : Halt} {n : Machine} {S' : Seen} (hsteps : m.heap.Steps S ds n.heap S')
      (hchain : n.chain = m.chain) : Leads S R m ds (.error halt n)

/-- On the machine `m`, if it is planted, the deeds of `p` are the given ones. -/
def Does {α : Type} (S : Seen) (R : Seen → Heap → α → Prop) (m : Machine) (p : Exec α)
    (ds : List Deed) : Prop :=
  m.Planted S → Leads S R m ds (p m)

theorem Leads.after {α : Type} {S : Seen} {R : Seen → Heap → α → Prop} {m : Machine}
    {ds : List Deed} {p : Exec α} (h : Leads S R m ds (p m)) :
    ∃ S', m.heap.Steps S ds (p.after m).heap S' ∧ (p.after m).chain = m.chain := by
  rw [Exec.after]
  generalize p m = r at h
  cases h with
  | ok hsteps hchain | error hsteps hchain => exact ⟨_, hsteps, hchain⟩

namespace Does

open Exec

variable {α β : Type} {R : Seen → Heap → α → Prop} {Q : Seen → Heap → β → Prop} {m : Machine}
variable {S : Seen} {ds : List Deed} {p : Exec α}

/-- That the machine is planted may be used. -/
theorem of_planted (h : m.Planted S → Does S R m p ds) : Does S R m p ds := fun hm => h hm hm

theorem pure {a : α} (ha : R S m.heap a) : Does S R m (pure a) [] := fun _ => .ok .refl rfl ha

theorem fail {t : Token} {fault : RuntimeFault} : Does S R m (fail t fault) [] :=
  fun _ => .error .refl rfl

theorem outOfFuel : Does S R m (throw .outOfFuel) [] := fun _ => .error .refl rfl

theorem ofExcept {t : Token} {r : Except RuntimeFault α} (h : ∀ a, r = .ok a → R S m.heap a) :
    Does S R m (ofExcept t r) [] := by
  cases r with
  | ok a => exact pure (h a rfl)
  | error fault => exact fail

/-- One step and then another. -/
theorem bind {f : α → Exec β} {deeds : Deeds} {next : α → Deeds} (hp : Does S R m p (deeds m))
    (hf : ∀ {S' : Seen} a m', m.heap.Within m'.heap → (∀ c, S c → S' c) → R S' m'.heap a →
      Does S' Q m' (f a) (next a m')) :
    Does S Q m (p >>= f) (Trace.andThen p deeds next m) := by
  intro hm
  have hresult := hp hm
  rw [Trace.andThen]
  simp only [Bind.bind, EStateM.bind]
  generalize p m = r at hresult
  cases hresult with
  | error hsteps hchain => exact .error (by simpa using hsteps) hchain
  | @ok a m' S' hsteps hchain ha =>
    have hnext := hf a m' hsteps.within (fun _ => hsteps.seen) ha (hm.of_steps hsteps hchain)
    simp only
    generalize f a m' = r at hnext
    cases hnext with
    | ok hsteps' hchain' hb => exact .ok (hsteps.trans hsteps') (hchain'.trans hchain) hb
    | error hsteps' hchain' => exact .error (hsteps.trans hsteps') (hchain'.trans hchain)

/-- A step and then one without deeds. -/
theorem bind_silent {f : α → Exec β} (hp : Does S R m p ds)
    (hf : ∀ {S' : Seen} a m', m.heap.Within m'.heap → (∀ c, S c → S' c) → R S' m'.heap a →
      Does S' Q m' (f a) []) :
    Does S Q m (p >>= f) ds := by
  have hboth : Does S Q m (p >>= f)
      (Trace.andThen p (fun _ => ds) (fun _ => Trace.nothing) m) := bind hp hf
  rwa [Trace.andThen_nothing] at hboth

theorem imp {Q : Seen → Heap → α → Prop} (hp : Does S R m p ds) (h : ∀ S h a, R S h a → Q S h a) :
    Does S Q m p ds := by
  intro hm
  have hresult := hp hm
  generalize p m = r at hresult
  cases hresult with
  | ok hsteps hchain ha => exact .ok hsteps hchain (h _ _ _ ha)
  | error hsteps hchain => exact .error hsteps hchain

theorem map {g : α → β} (hp : Does S R m p ds) (hg : ∀ S h a, R S h a → Q S h (g a)) :
    Does S Q m (g <$> p) ds :=
  bind_silent hp fun a m' _ _ ha => pure (hg _ m'.heap a ha)

theorem get_bind {f : Machine → Exec β} (h : Does S Q m (f m) ds) : Does S Q m (get >>= f) ds := h

/-- A step that changes no more than the heap. -/
theorem withHeap {f : Heap → α × Heap} {S' : Seen} (h : m.heap.Steps S ds (f m.heap).2 S')
    (ha : R S' (f m.heap).2 (f m.heap).1) : Does S R m (withHeap f) ds :=
  fun _ => .ok (n := { m with heap := (f m.heap).2 }) h rfl ha

theorem modifyHeap {f : Machine → Heap} (h : m.heap.Steps S ds (f m) S) :
    Does S (fun _ _ _ => True) m (modify fun m => { m with heap := f m } : Exec Unit) ds :=
  fun _ => .ok (n := { m with heap := f m }) h rfl trivial

theorem writeLine {v : Value} : Does S (fun _ _ _ => True) m (writeLine v) [] := by
  intro _
  rw [Exec.writeLine]
  split
  · exact .ok .refl rfl trivial
  · exact .error .refl rfl

theorem readClock : Does S (fun _ => Heap.Has) m readClock [] :=
  fun _ => .ok (n := { m with clock := m.clock.tick }) .refl rfl trivial

theorem defineIn {id : FrameId} {name : String} {v : Value} (hv : m.heap.Has v) :
    Does S (fun _ _ _ => True) m (defineIn id name v) [] :=
  modifyHeap (Heap.Step.define id name hv).single

/-- A property is read first. -/
theorem read {owner : Owner} {name : Token} (howner : m.heap.Has owner.value) (h : Does S R m p []) :
    Does S R m p [.read owner name m] := by
  intro hm
  have hread : m.heap.Steps S [.read owner name m] m.heap S := (Heap.Step.read rfl howner).single
  have hresult := h hm
  generalize p m = r at hresult
  cases hresult with
  | ok hsteps hchain ha => exact .ok (hread.trans hsteps) hchain ha
  | error hsteps hchain => exact .error (hread.trans hsteps) hchain

/-- A run in another chain. -/
theorem inChain {chain : Chain} {p : Exec α} (hchain : S chain)
    (h : Does S R { m with chain := chain } p ds) : Does S R m (inChain chain p) ds := by
  intro hm
  have hresult := h ⟨hm.heap, hchain⟩
  simp only [Exec.inChain]
  generalize p { m with chain := chain } = r at hresult
  cases hresult with
  | ok hsteps _ ha => exact .ok hsteps rfl ha
  | error hsteps _ => exact .error hsteps rfl

/-- A run one call deeper. -/
theorem nested {p : Exec α} (h : Does S R { m with depth := m.depth + 1 } p ds) :
    Does S R m (nested p) ds := by
  intro hm
  have hresult := h ⟨hm.heap, hm.chain⟩
  simp only [Exec.nested]
  generalize p { m with depth := m.depth + 1 } = r at hresult
  cases hresult with
  | ok hsteps hchain ha => exact .ok hsteps hchain ha
  | error hsteps hchain => exact .error hsteps hchain

end Does

end Lox
