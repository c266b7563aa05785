import Lox.Proofs.Machine.Layout

/-!
# What a running program preserves

The nodes of the programs that a machine has been given stand at known places, and what is
recorded for them is where their names are declared. While a program runs, every function sees
a chain that fits the scopes around its declaration, and so does every method of a class apart
from its receiver. Each frame but the global one was made for one scope, and each reference was
made in a chain of frames that were made for the scopes around its node.

A step that keeps to this, and that halts for no other reason than those a program with bound
names has, is safe. Safe steps one after the other are a safe step.
-/

namespace Lox

variable {c : Closure} {layers : List Layer} {chain : Chain}

/-- The frames that are made, in the order in which they are made. -/
def openings (events : List Event) : List FrameId :=
  events.filterMap fun
    | .opened frame _ _ => some frame
    | .referred .. => none

theorem openings_append (events events' : List Event) :
    openings (events ++ events') = openings events ++ openings events' :=
  List.filterMap_append

/-- The scopes around a function declaration that a chain fits. A function without statements
need not see anything. -/
def Closure.Fits (vs : List Visit) (frames : Frames) (events : List Event) (c : Closure) : Prop :=
  c.chain = [] ∧ c.decl.body = [] ∧ c.isInitializer = false ∨
    ∃ cls layers, Matches frames events layers c.chain ∧ Walk.Settled layers ∧
      c.decl.WellFormed ∧ (∀ v ∈ c.decl.visits cls layers, v ∈ vs) ∧
        (c.isInitializer = true → ∃ m outer, layers = .receiver m :: outer)

/-- The scopes around a method that a chain fits, apart from that of its receiver. -/
def Closure.FitsMethod (vs : List Visit) (frames : Frames) (events : List Event) (c : Closure) :
    Prop :=
  ∃ cls layers, Matches frames events layers c.chain ∧ Walk.Settled layers ∧
    c.decl.WellFormed ∧ ∀ v ∈ c.decl.visits cls (.receiver c.decl :: layers), v ∈ vs

/-- A reference was made in a chain of frames that were made for the scopes around its node. -/
def Event.Placed (vs : List Visit) (events : List Event) : Event → Prop
  | .opened .. => True
  | .referred id name chain distance =>
    ∃ v ∈ vs, v.id = id ∧ v.name = name.lexeme ∧ distance = Layers.depth? v.layers v.name ∧
      Stands events v.layers chain

/-- A frame and a name that it is to do without, if a frame is watched. -/
class Vacancy where
  place? : Option (FrameId × String)

/-- Unless something else is said, no frame is watched. -/
instance (priority := low) Vacancy.nowhere : Vacancy := ⟨none⟩

/-- The frame that is watched is a local one, and it does without the name. -/
def Frames.Vacant [Vacancy] (frames : Frames) : Prop :=
  ∀ p ∈ Vacancy.place?, p.1 < frames.size ∧ p.1 ≠ globalFrame ∧ (frames.frame p.1).get? p.2 = none

/-- What holds of a heap and of what is recorded, behind the given events, if the programs that
were run have the nodes `vs`. -/
structure Inv [Vacancy] (vs : List Visit) (events : List Event) (heap : Heap)
    (locals : Locals) : Prop where
  allowed : ∀ v ∈ vs, v.Allowed
  within : ∀ v ∈ vs, Within v.cls v.layers
  recorded : ∀ v ∈ vs, locals[v.id]? = Layers.depth? v.layers v.name
  size : 0 < heap.frames.size
  openings : openings events = List.range' 1 (heap.frames.size - 1)
  placed : ∀ e ∈ events, e.Placed vs events
  functions : ∀ f, (heap.function f).Fits vs heap.frames events
  methods : ∀ c name m, (heap.cls c).methods.get? name = some m →
    m.FitsMethod vs heap.frames events
  vacant : heap.frames.Vacant

/-- The faults that no program with bound names meets. -/
def RuntimeFault.isMisbinding : RuntimeFault → Bool
  | .unresolvableDepth _ | .undefinedAtDistance _ | .superUnavailable | .invalidUnaryOperator
  | .invalidBinaryOperator | .custom _ => true
  | _ => false

/-- A fault that is neither a misbinding nor an undefined variable. -/
def RuntimeFault.Ordinary (fault : RuntimeFault) : Prop :=
  fault.isMisbinding = false ∧ ∀ x, fault ≠ .undefinedVariable x

/-- A program with bound names may halt for this reason. A variable that is not defined is a
global one, and the last thing that happened is the reference to it. -/
def Halt.Excused (frames : Frames) (events : List Event) : Halt → Prop
  | .fault line f =>
    f.isMisbinding = false ∧ ∀ x, f = .undefinedVariable x →
      (frames.frame globalFrame).get? x = none ∧
        ∃ id name chain, events.getLast? = some (.referred id name chain none) ∧
          name.lexeme = x ∧ name.line = line
  | .output _ => True
  | .outOfFuel => True

/-! ## Changes of the heap -/

section

variable {vs : List Visit} {events events' : List Event} {heap heap' : Heap} {locals : Locals}

theorem Closure.Fits.mono {frames frames' : Frames} (h : c.Fits vs frames events)
    (hframes : frames.Extends frames') (hevents : events <+: events') :
    c.Fits vs frames' events' := by
  rcases h with h | ⟨cls, layers, hmatches, h⟩
  · exact .inl h
  · exact .inr ⟨cls, layers, hmatches.mono hframes fun _ he => hevents.subset he, h⟩

theorem Closure.FitsMethod.mono {frames frames' : Frames} (h : c.FitsMethod vs frames events)
    (hframes : frames.Extends frames') (hevents : events <+: events') :
    c.FitsMethod vs frames' events' := by
  obtain ⟨cls, layers, hmatches, h⟩ := h
  exact ⟨cls, layers, hmatches.mono hframes fun _ he => hevents.subset he, h⟩

theorem Stands.mono (h : Stands events layers chain) (hevents : events <+: events') :
    Stands events' layers chain := by
  induction h with
  | outermost => exact .outermost
  | inner hopened _ ih => exact .inner (hevents.subset hopened) ih

theorem Event.Placed.mono {e : Event} (h : e.Placed vs events) (hevents : events <+: events') :
    e.Placed vs events' := by
  cases e with
  | opened frame region outer => exact trivial
  | referred id name chain distance =>
    obtain ⟨v, hv, hid, hname, hd, hstands⟩ := h
    exact ⟨v, hv, hid, hname, hd, hstands.mono hevents⟩

variable [Vacancy]

theorem Frames.Vacant.push {frames : Frames} (h : frames.Vacant) (frame : Frame) :
    (frames.push frame).Vacant := by
  intro p hp
  obtain ⟨hlt, hlocal, hnone⟩ := h p hp
  exact ⟨Nat.lt_of_lt_of_le hlt (extends_push frames frame).size, hlocal,
    by rw [frame_push_of_lt frame hlt, hnone]⟩

/-- A name is defined in another place than the one that is watched. -/
theorem Frames.Vacant.define {frames : Frames} (h : frames.Vacant) {id : FrameId} {x : String}
    (v : Value) (hid : id < frames.size) (hnew : ∀ p ∈ Vacancy.place?, id = p.1 → x ≠ p.2) :
    (frames.define id x v).Vacant := by
  intro p hp
  obtain ⟨hlt, hlocal, hnone⟩ := h p hp
  refine ⟨by simpa using hlt, hlocal, ?_⟩
  rw [get?_define x p.2 v hid, if_neg, hnone]
  rintro ⟨hframe, hx⟩
  exact hnew p hp hframe.symm hx.symm

/-- More programs are given to a machine. -/
theorem Inv.extend {vs' : List Visit} {locals' : Locals} (h : Inv vs events heap locals)
    (hvs : ∀ v ∈ vs, v ∈ vs') (hallowed : ∀ v ∈ vs', v.Allowed)
    (hwithin : ∀ v ∈ vs', Within v.cls v.layers)
    (hrecorded : ∀ v ∈ vs', locals'[v.id]? = Layers.depth? v.layers v.name) :
    Inv vs' events heap locals' where
  allowed := hallowed
  within := hwithin
  recorded := hrecorded
  size := h.size
  openings := h.openings
  placed e he := by
    have hplaced := h.placed e he
    cases e with
    | opened frame region outer => exact trivial
    | referred id name chain distance =>
      obtain ⟨v, hv, hrest⟩ := hplaced
      exact ⟨v, hvs v hv, hrest⟩
  functions f := by
    rcases h.functions f with hf | ⟨cls, layers, hmatches, hsettled, hwf, hvisits, hinit⟩
    · exact .inl hf
    · exact .inr ⟨cls, layers, hmatches, hsettled, hwf, fun v hv => hvs v (hvisits v hv), hinit⟩
  methods c name m hm := by
    obtain ⟨cls, layers, hmatches, hsettled, hwf, hvisits⟩ := h.methods c name m hm
    exact ⟨cls, layers, hmatches, hsettled, hwf, fun v hv => hvs v (hvisits v hv)⟩
  vacant := h.vacant

/-- A change of the heap keeps to the invariant if frames only gain names and what is new is as
it should be. -/
theorem Inv.change (h : Inv vs events heap locals) (hevents : events <+: events')
    (hframes : heap.frames.Extends heap'.frames)
    (hopenings : Lox.openings events' = List.range' 1 (heap'.frames.size - 1))
    (hplaced : ∀ e ∈ events', e ∈ events ∨ e.Placed vs events')
    (hfunctions : ∀ f, heap'.function f = heap.function f ∨
      (heap'.function f).Fits vs heap'.frames events')
    (hmethods : ∀ c name m, (heap'.cls c).methods.get? name = some m →
      (heap.cls c).methods.get? name = some m ∨ m.FitsMethod vs heap'.frames events')
    (hvacant : heap'.frames.Vacant) : Inv vs events' heap' locals where
  allowed := h.allowed
  within := h.within
  recorded := h.recorded
  size := Nat.lt_of_lt_of_le h.size hframes.size
  openings := hopenings
  placed e he := (hplaced e he).elim (fun he => (h.placed e he).mono hevents) id
  functions f := by
    rcases hfunctions f with hf | hf
    · rw [hf]
      exact (h.functions f).mono hframes hevents
    · exact hf
  methods c name m hm := by
    rcases hmethods c name m hm with hm | hm
    · exact (h.methods c name m hm).mono hframes hevents
    · exact hm
  vacant := hvacant

/-- Objects other than frames, functions and methods do not matter. -/
theorem Inv.congr (h : Inv vs events heap locals) (hframes : heap'.frames = heap.frames)
    (hfunctions : heap'.functions = heap.functions)
    (hmethods : ∀ c, (heap'.cls c).methods = (heap.cls c).methods) :
    Inv vs events heap' locals := by
  refine h.change (List.prefix_refl _) ?_ ?_ (fun e he => .inl he) (fun f => .inl ?_) ?_ ?_
  · rw [hframes]
    exact .refl _
  · rw [hframes]
    exact h.openings
  · simp only [Heap.function, hfunctions]
  · intro c name m hm
    rw [hmethods c] at hm
    exact .inl hm
  · rw [hframes]
    exact h.vacant

theorem Inv.refer (h : Inv vs events heap locals) {e : Event}
    (he : e.Placed vs (events ++ [e])) (hopenings : Lox.openings [e] = []) :
    Inv vs (events ++ [e]) heap locals := by
  refine h.change (List.prefix_append _ _) (.refl _) ?_ ?_ (fun _ => .inl rfl)
    (fun _ _ _ hm => .inl hm) h.vacant
  · rw [openings_append, hopenings, List.append_nil, h.openings]
  · intro e' he'
    rcases List.mem_append.1 he' with he' | he'
    · exact .inl he'
    · obtain rfl := List.mem_singleton.1 he'
      exact .inr he

/-- A frame is made. -/
theorem Inv.newFrame (h : Inv vs events heap locals) (frame : Frame) (region : Region)
    (outer : Chain) :
    Inv vs (events ++ [.opened heap.frames.next region outer]) (heap.newFrame frame).2
      locals := by
  refine h.change (List.prefix_append _ _) (Frames.extends_push _ _) ?_ ?_ (fun _ => .inl rfl)
    (fun _ _ _ hm => .inl hm) (h.vacant.push frame)
  · have hnext : heap.frames.next = heap.frames.size := rfl
    have hrange : List.range' 1 heap.frames.size =
        List.range' 1 (heap.frames.size - 1) ++ [heap.frames.size] := by
      have hsize := h.size
      obtain ⟨n, hn⟩ : ∃ n, heap.frames.size = n + 1 := ⟨heap.frames.size - 1, by omega⟩
      rw [hn, List.range'_concat]
      simp [Nat.add_comm]
    rw [openings_append, h.openings]
    simp [Lox.openings, Heap.newFrame, hrange, hnext]
  · intro e he
    rcases List.mem_append.1 he with he | he
    · exact .inl he
    · obtain rfl := List.mem_singleton.1 he
      exact .inr trivial

theorem Inv.define (h : Inv vs events heap locals) {id : FrameId} {name : Token} (v : Value)
    (hid : id < heap.frames.size) (hname : name.IsName)
    (hnew : ∀ p ∈ Vacancy.place?, id = p.1 → name.lexeme ≠ p.2) :
    Inv vs events { heap with frames := heap.frames.define id name.lexeme v } locals := by
  refine h.change (List.prefix_refl _) (Frames.extends_define v hid hname) ?_
    (fun e he => .inl he) (fun _ => .inl rfl) (fun _ _ _ hm => .inl hm) (h.vacant.define v hid hnew)
  rw [Frames.size_define]
  exact h.openings

omit [Vacancy] in
theorem Heap.function_newFunction (heap : Heap) (c : Closure) (f : FunctionId) :
    (heap.newFunction c).2.function f = if f = heap.functions.size then c else heap.function f := by
  simp only [Heap.function, Heap.newFunction, Array.getD_eq_getD_getElem?, Array.getElem?_push]
  split <;> rfl

omit [Vacancy] in
theorem Heap.cls_newClass (heap : Heap) (c : ClassObject) (i : ClassId) :
    (heap.newClass c).2.cls i = if i = heap.classes.size then c else heap.cls i := by
  simp only [Heap.cls, Heap.newClass, Array.getD_eq_getD_getElem?, Array.getElem?_push]
  split <;> rfl

theorem Inv.newFunction (h : Inv vs events heap locals) (hc : c.Fits vs heap.frames events) :
    Inv vs events (heap.newFunction c).2 locals := by
  refine h.change (List.prefix_refl _) (.refl _) h.openings (fun e he => .inl he) (fun f => ?_)
    (fun _ _ _ hm => .inl hm) h.vacant
  rw [Heap.function_newFunction]
  split
  · exact .inr hc
  · exact .inl rfl

theorem Inv.newClass (h : Inv vs events heap locals) {c : ClassObject}
    (hc : ∀ name m, c.methods.get? name = some m → m.FitsMethod vs heap.frames events) :
    Inv vs events (heap.newClass c).2 locals := by
  refine h.change (List.prefix_refl _) (.refl _) h.openings (fun e he => .inl he)
    (fun _ => .inl rfl) (fun i name m hm => ?_) h.vacant
  rw [Heap.cls_newClass] at hm
  split at hm
  · exact .inr (hc name m hm)
  · exact .inl hm

omit [Vacancy] in
theorem Heap.methods_setClassField (heap : Heap) (c i : ClassId) (name : String) (v : Value) :
    ((heap.setClassField c name v).cls i).methods = (heap.cls i).methods := by
  simp only [Heap.cls, Heap.setClassField, Array.getD_eq_getD_getElem?, Array.getElem?_modify]
  split
  · cases heap.classes[i]? with
    | none => rfl
    | some o => rfl
  · rfl

end

/-- The functions on a heap are as `F` says, and the methods of its classes as `M` does. -/
structure Heap.All (F M : Closure → Prop) (h : Heap) : Prop where
  functions : ∀ f, F (h.function f)
  methods : ∀ c name m, (h.cls c).methods.get? name = some m → M m

namespace Heap.All

variable {F M : Closure → Prop} {h : Heap} (hh : h.All F M) {c : Closure}
include hh

theorem newFunction (hc : F c) : (h.newFunction c).2.All F M := by
  refine ⟨fun f => ?_, hh.methods⟩
  rw [Heap.function_newFunction]
  split
  · exact hc
  · exact hh.functions f

theorem newClass {c : ClassObject} (hc : ∀ name m, c.methods.get? name = some m → M m) :
    (h.newClass c).2.All F M := by
  refine ⟨hh.functions, fun i name m hm => ?_⟩
  rw [Heap.cls_newClass] at hm
  split at hm
  · exact hc name m hm
  · exact hh.methods i name m hm

theorem setClassField (c : ClassId) (name : String) (v : Value) :
    (h.setClassField c name v).All F M := by
  refine ⟨hh.functions, fun i x m hm => ?_⟩
  rw [Heap.methods_setClassField] at hm
  exact hh.methods i x m hm

theorem findMethod? {classes : List ClassId} {name : String}
    (hc : h.findMethod? classes name = some c) : M c := by
  obtain ⟨id, -, hid⟩ := List.exists_of_findSome?_eq_some hc
  exact hh.methods id name c hid

end Heap.All

/-! ## Steps -/

/-- What has been printed stays printed. -/
theorem Sink.prefix_writeLine (sink : Sink) (line : String) :
    sink.lines.toList <+: (sink.writeLine line).2.lines.toList := by
  unfold writeLine
  split
  · exact List.prefix_refl _
  · dsimp only
    split <;> simp

/-- What a safe step may do to a machine. -/
structure Moves [Vacancy] (vs : List Visit) (events events' : List Event) (m m' : Machine) : Prop where
  inv : Inv vs events' m'.heap m'.locals
  frames : m.heap.frames.Extends m'.heap.frames
  locals : m'.locals = m.locals
  chain : m'.chain = m.chain
  events : events <+: events'
  printed : m.sink.lines.toList <+: m'.sink.lines.toList

/-- A step from the machine `m`, behind the events `before`, with the events `during`. It does
no more than it may, and its result is as `post` says. -/
def Safe [Vacancy] {α : Type} (vs : List Visit) (before : List Event) (m : Machine) (p : Exec α)
    (during : List Event) (post : α → Machine → List Event → Prop) : Prop :=
  match p m with
  | .ok a m' => Moves vs before (before ++ during) m m' ∧ post a m' (before ++ during)
  | .error h m' =>
    Moves vs before (before ++ during) m m' ∧ h.Excused m'.heap.frames during

section

variable [Vacancy] {vs : List Visit} {events events' events'' : List Event} {m m' m'' : Machine}

omit [Vacancy] in
theorem Halt.Excused.append {frames : Frames} {halt : Halt} (h : halt.Excused frames events') :
    halt.Excused frames (events ++ events') := by
  cases halt with
  | fault line f =>
    refine ⟨h.1, fun x hx => ?_⟩
    obtain ⟨hget, id, name, chain, hlast, hname⟩ := h.2 x hx
    exact ⟨hget, id, name, chain, by rw [List.getLast?_append, hlast, Option.some_or], hname⟩
  | output f => exact trivial
  | outOfFuel => exact trivial

theorem Moves.refl (h : Inv vs events m.heap m.locals) : Moves vs events events m m :=
  ⟨h, .refl _, rfl, rfl, List.prefix_refl _, List.prefix_refl _⟩

theorem Moves.trans (h : Moves vs events events' m m') (h' : Moves vs events' events'' m' m'') :
    Moves vs events events'' m m'' where
  inv := h'.inv
  frames := h.frames.trans h'.frames
  locals := h'.locals.trans h.locals
  chain := h'.chain.trans h.chain
  events := h.events.trans h'.events
  printed := h.printed.trans h'.printed

theorem Moves.matches (h : Moves vs events events' m m')
    (hmatches : Matches m.heap.frames events layers chain) :
    Matches m'.heap.frames events' layers chain :=
  hmatches.mono h.frames fun _ he => h.events.subset he

/-- The current chain goes on to fit. -/
theorem Moves.matches_chain (h : Moves vs events events' m m')
    (hmatches : Matches m.heap.frames events layers m.chain) :
    Matches m'.heap.frames events' layers m'.chain := by
  rw [h.chain]
  exact h.matches hmatches

end

namespace Safe

open Exec

variable [Vacancy] {α β : Type} {vs : List Visit} {before during : List Event} {m : Machine}

theorem pure {a : α} {post : α → Machine → List Event → Prop}
    (h : Inv vs before m.heap m.locals) (hpost : post a m before) :
    Safe vs before m (pure a) [] post := by
  have hmoves := Moves.refl h
  simp only [Safe, List.append_nil]
  exact ⟨hmoves, hpost⟩

/-- One step and then another. -/
theorem bind {p : Exec α} {f : α → Exec β} {events : Events} {next : α → Events}
    {mid : α → Machine → List Event → Prop} {post : β → Machine → List Event → Prop}
    (hp : Safe vs before m p (events m) mid)
    (hf : ∀ a m' between, Moves vs before between m m' → mid a m' between →
      Safe vs between m' (f a) (next a m') post) :
    Safe vs before m (p >>= f) (Trace.andThen p events next m) post := by
  unfold Safe at hp
  cases hpm : p m with
  | error h m' =>
    rw [hpm] at hp
    have hbind : (p >>= f) m = .error h m' := by
      simp [Bind.bind, EStateM.bind, hpm]
    simpa [Safe, hbind, Trace.andThen, hpm] using hp
  | ok a m' =>
    rw [hpm] at hp
    have hbind : (p >>= f) m = f a m' := by
      simp [Bind.bind, EStateM.bind, hpm]
    have hf' := hf a m' _ hp.1 hp.2
    unfold Safe at hf' ⊢
    rw [hbind, Trace.andThen, hpm]
    simp only [← List.append_assoc]
    cases hfa : f a m' with
    | error h m'' =>
      rw [hfa] at hf'
      exact ⟨hp.1.trans hf'.1, hf'.2.append⟩
    | ok b m'' =>
      rw [hfa] at hf'
      exact ⟨hp.1.trans hf'.1, hf'.2⟩

/-- A step and then one without events. -/
theorem bind_silent {p : Exec α} {f : α → Exec β} {mid : α → Machine → List Event → Prop}
    {post : β → Machine → List Event → Prop} (hp : Safe vs before m p during mid)
    (hf : ∀ a m' between, Moves vs before between m m' → mid a m' between →
      Safe vs between m' (f a) [] post) :
    Safe vs before m (p >>= f) during post := by
  have h : Safe vs before m (p >>= f)
      (Trace.andThen p (fun _ => during) (fun _ => Trace.nothing) m) post := bind hp hf
  rwa [Trace.andThen_nothing] at h

/-- A step without events and then one that has some. -/
theorem silent_bind {p : Exec α} {f : α → Exec β} {next : α → Events}
    {mid : α → Machine → List Event → Prop} {post : β → Machine → List Event → Prop}
    (hp : Safe vs before m p [] mid)
    (hf : ∀ a m' between, Moves vs before between m m' → mid a m' between →
      Safe vs between m' (f a) (next a m') post) :
    Safe vs before m (p >>= f) (Trace.andThen p Trace.nothing next m) post :=
  bind hp hf

theorem get_bind {f : Machine → Exec β} {post : β → Machine → List Event → Prop}
    (h : Safe vs before m (f m) during post) : Safe vs before m (get >>= f) during post := h

theorem mono {p : Exec α} {mid post : α → Machine → List Event → Prop}
    (hp : Safe vs before m p during mid)
    (hpost : ∀ a m' after, Moves vs before after m m' → mid a m' after → post a m' after) :
    Safe vs before m p during post := by
  unfold Safe at hp ⊢
  cases hpm : p m with
  | error h m' =>
    rw [hpm] at hp
    exact hp
  | ok a m' =>
    rw [hpm] at hp
    exact ⟨hp.1, hpost a m' _ hp.1 hp.2⟩

theorem fail {t : Token} {fault : RuntimeFault} {post : α → Machine → List Event → Prop}
    (h : Inv vs before m.heap m.locals) (hfault : fault.Ordinary) :
    Safe vs before m (fail t fault) [] post := by
  have hmoves := Moves.refl h
  simp only [Safe, List.append_nil]
  exact ⟨hmoves, hfault.1, fun x hx => absurd hx (hfault.2 x)⟩

/-- A global variable that is not defined, behind the reference to it. -/
theorem undefinedGlobal {id : NodeId} {t : Token} {post : α → Machine → List Event → Prop}
    (h : Inv vs (before ++ [.referred id t chain none]) m.heap m.locals)
    (hget : (m.heap.frames.frame globalFrame).get? t.lexeme = none) :
    Safe vs before m (Exec.fail t (.undefinedVariable t.lexeme)) [.referred id t chain none]
      post := by
  refine ⟨⟨h, .refl _, rfl, rfl, List.prefix_append _ _, List.prefix_refl _⟩, rfl, fun x hx => ?_⟩
  obtain rfl := RuntimeFault.undefinedVariable.inj hx
  exact ⟨hget, id, t, chain, rfl, rfl, rfl⟩

theorem ofExcept {t : Token} {r : Except RuntimeFault α}
    {post : α → Machine → List Event → Prop} (h : Inv vs before m.heap m.locals)
    (hok : ∀ a, r = .ok a → post a m before)
    (herror : ∀ fault, r = .error fault → fault.Ordinary) :
    Safe vs before m (ofExcept t r) [] post := by
  cases r with
  | ok a => exact pure h (hok a rfl)
  | error fault => exact fail h (herror fault rfl)

theorem outOfFuel {post : α → Machine → List Event → Prop}
    (h : Inv vs before m.heap m.locals) : Safe vs before m (throw .outOfFuel) [] post := by
  have hmoves := Moves.refl h
  simp only [Safe, List.append_nil]
  exact ⟨hmoves, trivial⟩

/-- A change of the heap. -/
theorem withHeap {f : Heap → α × Heap} {post : α → Machine → List Event → Prop}
    (hinv : Inv vs (before ++ during) (f m.heap).2 m.locals)
    (hframes : m.heap.frames.Extends (f m.heap).2.frames)
    (hpost : post (f m.heap).1 { m with heap := (f m.heap).2 } (before ++ during)) :
    Safe vs before m (withHeap f) during post :=
  ⟨⟨hinv, hframes, rfl, rfl, List.prefix_append _ _, List.prefix_refl _⟩, hpost⟩

theorem modifyHeap {f : Machine → Heap} {post : Unit → Machine → List Event → Prop}
    (hinv : Inv vs before (f m) m.locals) (hframes : m.heap.frames.Extends (f m).frames)
    (hpost : post () { m with heap := f m } before) :
    Safe vs before m (modify fun m => { m with heap := f m }) [] post := by
  simp only [Safe, List.append_nil]
  exact ⟨⟨hinv, hframes, rfl, rfl, List.prefix_refl _, List.prefix_refl _⟩, hpost⟩

/-- A name of the program is given a value in a frame. -/
theorem defineIn {id : FrameId} {name : Token} {v : Value}
    (h : Inv vs before m.heap m.locals) (hid : id < m.heap.frames.size) (hname : name.IsName)
    (hnew : ∀ p ∈ Vacancy.place?, id = p.1 → name.lexeme ≠ p.2) :
    Safe vs before m (defineIn id name.lexeme v) []
      fun _ m' _ => ((m'.heap.frames.frame id).get? name.lexeme).isSome := by
  refine modifyHeap (h.define v hid hname hnew) (Frames.extends_define v hid hname) ?_
  simp [Frames.get?_define name.lexeme name.lexeme v hid]

/-- A name of the program is given a value in the innermost frame. -/
theorem define {layers : List Layer} {name : Token} {v : Value}
    (h : Inv vs before m.heap m.locals)
    (hmatches : Matches m.heap.frames before layers m.chain) (hname : name.IsName)
    (hnew : ∀ p ∈ Vacancy.place?, m.chain.head? = some p.1 → name.lexeme ≠ p.2) :
    Safe vs before m (define name.lexeme v) []
      fun _ m' _ => ∀ id ∈ m'.chain.head?, ((m'.heap.frames.frame id).get? name.lexeme).isSome := by
  obtain ⟨id, outer, hchain, hid⟩ := hmatches.exists_head
  refine get_bind ?_
  rw [hchain]
  have hplace : ∀ p ∈ Vacancy.place?, id = p.1 → name.lexeme ≠ p.2 := fun p hp heq =>
    hnew p hp (by rw [hchain, heq]; rfl)
  refine (defineIn h hid hname hplace).mono fun _ m' _ hmoves hget id' hid' => ?_
  rw [hmoves.chain, hchain] at hid'
  obtain rfl := Option.some.inj hid'
  exact hget

/-- A run in another chain. -/
theorem inChain {chain : Chain} {p : Exec α}
    (h : Safe vs before { m with chain := chain } p during fun _ _ _ => True) :
    Safe vs before m (inChain chain p) during fun _ _ _ => True := by
  unfold Safe Exec.inChain at *
  dsimp only
  cases hp : p { m with chain := chain } with
  | error halt m' =>
    rw [hp] at h
    exact ⟨⟨h.1.inv, h.1.frames, h.1.locals, rfl, h.1.events, h.1.printed⟩, h.2⟩
  | ok a m' =>
    rw [hp] at h
    exact ⟨⟨h.1.inv, h.1.frames, h.1.locals, rfl, h.1.events, h.1.printed⟩, trivial⟩

/-- A run one call deeper. -/
theorem nested {p : Exec α}
    (h : Safe vs before { m with depth := m.depth + 1 } p during fun _ _ _ => True) :
    Safe vs before m (nested p) during fun _ _ _ => True := by
  unfold Safe Exec.nested at *
  cases hp : p { m with depth := m.depth + 1 } with
  | error halt m' =>
    rw [hp] at h
    exact ⟨⟨h.1.inv, h.1.frames, h.1.locals, h.1.chain, h.1.events, h.1.printed⟩, h.2⟩
  | ok a m' =>
    rw [hp] at h
    exact ⟨⟨h.1.inv, h.1.frames, h.1.locals, h.1.chain, h.1.events, h.1.printed⟩, trivial⟩

theorem writeLine {v : Value} (h : Inv vs before m.heap m.locals) :
    Safe vs before m (writeLine v) [] fun _ _ _ => True := by
  unfold Safe Exec.writeLine
  have hprinted := m.sink.prefix_writeLine (m.heap.text v)
  cases hw : m.sink.writeLine (m.heap.text v) with
  | mk fault sink =>
    rw [hw] at hprinted
    simp only [List.append_nil]
    cases fault with
    | none => exact ⟨⟨h, .refl _, rfl, rfl, List.prefix_refl _, hprinted⟩, trivial⟩
    | some fault => exact ⟨⟨h, .refl _, rfl, rfl, List.prefix_refl _, hprinted⟩, trivial⟩

theorem readClock (h : Inv vs before m.heap m.locals) :
    Safe vs before m readClock [] fun _ _ _ => True := by
  simp only [Safe, List.append_nil]
  exact ⟨⟨h, .refl _, rfl, rfl, List.prefix_refl _, List.prefix_refl _⟩, trivial⟩

/-- An event at the start of a step. -/
theorem cons {e : Event} {p : Exec α} {post : α → Machine → List Event → Prop}
    (h : Safe vs (before ++ [e]) m p during post) :
    Safe vs before m p (e :: during) post := by
  have happend : before ++ e :: during = before ++ [e] ++ during := by simp
  unfold Safe at h ⊢
  rw [happend]
  cases hp : p m with
  | error halt m' =>
    rw [hp] at h
    exact ⟨⟨h.1.inv, h.1.frames, h.1.locals, h.1.chain, (List.prefix_append _ _).trans h.1.events,
      h.1.printed⟩,
      (h.2.append : halt.Excused _ ([e] ++ during))⟩
  | ok a m' =>
    rw [hp] at h
    exact ⟨⟨h.1.inv, h.1.frames, h.1.locals, h.1.chain, (List.prefix_append _ _).trans h.1.events,
      h.1.printed⟩,
      h.2⟩

end Safe

end Lox
