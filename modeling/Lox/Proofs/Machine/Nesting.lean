import Lox.Proofs.Heap.Slots
import Lox.Proofs.Machine.Chronicle
import Lox.Proofs.Machine.Runs

/-!
# Frames inside each other and classes that inherit from each other

A frame leads to the one around it, and a class to its superclass. Both were made before, so the way
along either is finite: from a frame it ends in the global frame. This holds at each moment of a run,
of whatever program, and also after a fault. So whatever is looked for along such a way is found in
as many steps as objects were made, or it is not there.
-/

namespace Lox

/-! ## Ways -/

/-- The finite way from a place along pointers. -/
inductive Way (next : Nat → Option Nat) : Nat → List Nat → Prop
  | last {i : Nat} (h : next i = none) : Way next i [i]
  | step {i j : Nat} {way : List Nat} (h : next i = some j) (hway : Way next j way) :
      Way next i (i :: way)

/-- What is found first along pointers, or that nothing is there, in at most so many steps. If they
do not suffice, there is no answer. -/
def follow {β : Type} (next : Nat → Option Nat) (look : Nat → Option β) :
    Nat → Nat → Option (Option β)
  | 0, _ => none
  | fuel + 1, i =>
    match look i, next i with
    | some b, _ => some (some b)
    | none, none => some none
    | none, some j => follow next look fuel j

namespace Way

variable {next : Nat → Option Nat} {i : Nat} {way : List Nat}

/-- Where pointers go down, as many steps suffice as there are places up to the first one. -/
theorem follow_eq {β : Type} (h : Way next i way) (hdown : ∀ i j, next i = some j → j < i)
    (look : Nat → Option β) {fuel : Nat} (hfuel : i < fuel) :
    follow next look fuel i = some (way.findSome? look) := by
  induction h generalizing fuel with
  | last h =>
    obtain ⟨fuel, rfl⟩ := Nat.exists_eq_add_of_lt hfuel
    rw [follow, h, List.findSome?_singleton]
    cases look _ with
    | none | some b => rfl
  | @step i j way h _ ih =>
    obtain ⟨fuel, rfl⟩ := Nat.exists_eq_add_of_lt hfuel
    have hj : j < i + fuel := Nat.lt_of_lt_of_le (hdown i j h) (Nat.le_add_right i fuel)
    rw [follow, h, List.findSome?_cons]
    cases look i with
    | none => exact ih hj
    | some b => rfl

theorem getElem?_eq (h : Way next i way) (d : Nat) : way[d]? = hops next d i := by
  induction h generalizing d with
  | last h =>
    cases d with
    | zero => rfl
    | succ d => simp [hops, h]
  | step h _ ih =>
    cases d with
    | zero => rfl
    | succ d => simpa [hops, h] using ih d

end Way

/-! ## Chains that are seen -/

/-- The chains that are seen are ways: of those that begin with one frame there is only one, what is
behind a frame is seen too, and each frame begins a chain. -/
structure Seen.Coherent (S : Seen) (size : Nat) : Prop where
  unique : ∀ i c c', S (i :: c) → S (i :: c') → c = c'
  outer : ∀ i j c, S (i :: j :: c) → S (j :: c)
  all : ∀ i < size, ∃ c, S (i :: c)

namespace Seen.Coherent

variable {S : Seen} {size : Nat}

theorem initial : Coherent (Rooted 1) 1 := by
  have hglobal : ∀ {c}, Rooted 1 c → c = globalChain := by
    intro c hc
    cases hc with
    | global => rfl
    | inner hi hbelow h =>
      -- Nothing can be behind the only frame.
      rw [Nat.lt_one_iff.1 hi] at hbelow
      cases h with
      | global | inner => exact absurd (hbelow _ List.mem_cons_self) (Nat.not_lt_zero _)
  refine ⟨fun i c c' h h' => ?_, fun i j c h => ?_, fun i hi => ?_⟩
  · exact (List.cons.inj ((hglobal h).trans (hglobal h').symm)).2
  · cases hglobal h
  · obtain rfl := Nat.lt_one_iff.1 hi
    exact ⟨[], .global Nat.zero_lt_one⟩

/-- The new frame starts one chain only, for no chain that was seen has it. -/
theorem push (h : Coherent S size) (hrooted : ∀ c, S c → Rooted size c) {chain : Chain}
    (hchain : S chain) : Coherent (S.push size chain) (size + 1) := by
  have hfresh : ∀ {c}, ¬ S (size :: c) := fun hc =>
    Nat.lt_irrefl _ ((hrooted _ hc).lt_of_mem size List.mem_cons_self)
  refine ⟨?_, ?_, fun i hi => ?_⟩
  · rintro i c c' (hc | hc) (hc' | hc')
    · exact h.unique i c c' hc hc'
    · cases hc'
      exact absurd hc hfresh
    · cases hc
      exact absurd hc' hfresh
    · exact (List.cons.inj (hc.trans hc'.symm)).2
  · rintro i j c (hc | hc)
    · exact .inl (h.outer i j c hc)
    · cases hc
      exact .inl hchain
  · rcases Nat.lt_succ_iff_lt_or_eq.1 hi with hi | rfl
    · obtain ⟨c, hc⟩ := h.all i hi
      exact ⟨c, .inl hc⟩
    · exact ⟨chain, .inr rfl⟩

/-- The frame around each frame. -/
theorem exists_around (h : Coherent S size) : ∃ around : FrameId → Option FrameId,
    (∀ i j, around i = some j ↔ ∃ c, S (i :: j :: c)) ∧ ∀ i c, S (i :: c) → Way around i (i :: c) := by
  have hnext : ∀ i, ∃ next : Option FrameId, ∀ j, next = some j ↔ ∃ c, S (i :: j :: c) := by
    intro i
    by_cases hi : ∃ j c, S (i :: j :: c)
    · obtain ⟨j, c, hc⟩ := hi
      refine ⟨some j, fun j' => ⟨?_, ?_⟩⟩
      · rintro ⟨⟩
        exact ⟨c, hc⟩
      · rintro ⟨c', hc'⟩
        rw [(List.cons.inj (h.unique i _ _ hc hc')).1]
    · refine ⟨none, fun j => iff_of_false (Option.some_ne_none j).symm ?_⟩
      rintro ⟨c, hc⟩
      exact hi ⟨j, c, hc⟩
  choose around haround using hnext
  refine ⟨around, haround, fun i c => ?_⟩
  induction c generalizing i with
  | nil =>
    intro hc
    refine .last (Option.eq_none_iff_forall_ne_some.2 fun j hj => ?_)
    obtain ⟨c, hc'⟩ := (haround i j).1 hj
    cases h.unique i _ _ hc hc'
  | cons j c ih =>
    intro hc
    exact .step ((haround i j).2 ⟨c, hc⟩) (ih j (h.outer i j c hc))

end Seen.Coherent

theorem Heap.Steps.coherent {h h' : Heap} {S S' : Seen} {ds : List Deed}
    (hs : h.Steps S ds h' S') (hh : h.Planted S) (hS : S.Coherent h.frames.size) :
    S'.Coherent h'.frames.size := by
  induction hs with
  | refl => exact hS
  | step hsteps hstep ih =>
    cases hstep with
    | frames hsize => exact hsize ▸ ih
    | @frame frame _ hchain =>
      refine (congrArg _ (Frames.size_push _ frame)).mpr ?_
      exact ih.push (hsteps.planted hh).rooted hchain
    | @wrote owner =>
      cases owner with
      | _ => exact ih
    | _ => exact ih

/-! ## What is held at a moment -/

namespace Callable

/-- The chain that is seen by what a call calls. -/
def chains : Callable → List Chain
  | closure c => [c.chain]
  | native _ | constructor _ => []

/-- The class that a call makes an instance of. -/
def values : Callable → List Value
  | constructor c => [.class_ c]
  | native _ | closure _ => []

theorem isIn_iff {S : Seen} {h : Heap} {f : Callable} :
    f.IsIn S h ↔ (∀ c ∈ f.chains, S c) ∧ h.HasAll f.values := by
  cases f with
  | _ => simp [IsIn, chains, values, Heap.HasAll, Heap.Has]

end Callable

/-- The chains that a task holds. -/
def Task.chains : Task → List Chain
  | block chain _ => [chain]
  | invoke f _ => f.chains
  | closure c _ => [c.chain]
  | _ => []

/-- The values that a task holds. -/
def Task.values : Task → List Value
  | call callee _ vs => callee :: vs
  | invoke f vs => f.values ++ vs
  | closure _ vs => vs
  | _ => []

/-- The values that a task gives. -/
def Answer.contents : Answer → List Value
  | value v | completion (.returned v) => [v]
  | values vs => vs
  | completion .normal | done => []

namespace Run

/-- The chains that a run holds: that of its machine and those of its task. -/
def chains (r : Run) : List Chain := r.machine.chain :: r.task.chains

def IsIn (S : Seen) (h : Heap) (r : Run) : Prop := (∀ c ∈ r.chains, S c) ∧ h.HasAll r.task.values

variable {r r' : Run} {S S' : Seen} {h h' : Heap} {ds : List Deed}

theorem IsIn.mono (hr : r.IsIn S h) (hs : h.Steps S ds h' S') : r.IsIn S' h' :=
  ⟨fun c hc => hs.seen (hr.1 c hc), fun v hv => (hr.2 v hv).mono hs.within⟩

theorem isIn_of_chain (hchain : S r.machine.chain) (hchains : ∀ c ∈ r.task.chains, S c)
    (hvalues : h.HasAll r.task.values) : r.IsIn S h :=
  ⟨List.forall_mem_cons.2 ⟨hchain, hchains⟩, hvalues⟩

end Run

/-! ## A run and those inside it -/

theorem Does.of_ok {α : Type} {S : Seen} {R : Seen → Heap → α → Prop} {m m' : Machine} {p : Exec α}
    {ds : List Deed} {a : α} (hp : Does S R m p ds) (hm : m.Planted S) (h : p m = .ok a m') :
    ∃ S', m.heap.Steps S ds m'.heap S' ∧ m'.Planted S' ∧ R S' m'.heap a := by
  have hresult := hp hm
  rw [h] at hresult
  cases hresult with
  | ok hsteps hchain ha => exact ⟨_, hsteps, hm.of_steps hsteps hchain, ha⟩

/-- Doing a task changes the heap in steps, and what it gives is there. -/
theorem Task.does {task : Task} {S : Seen} {m : Machine} (fuel : Nat)
    (hchains : ∀ c ∈ task.chains, S c) (hvalues : m.heap.HasAll task.values) :
    ∃ ds, Does S (fun _ h a => h.HasAll a.contents) m (task.exec fuel) ds := by
  obtain ⟨heval, hexec⟩ := does_evaluate_execute fuel
  have hvalue : ∀ (_ : Seen) (h : Heap) (v : Value), h.Has v → h.HasAll (Answer.value v).contents :=
    fun _ _ _ hv => List.forall_mem_singleton.2 hv
  have hend : ∀ (_ : Seen) (h : Heap) (c : Completion), h.HasEnd c →
      h.HasAll (Answer.completion c).contents := by
    intro _ h c hc
    cases hc with
    | normal => exact List.forall_mem_nil _
    | returned hv => exact List.forall_mem_singleton.2 hv
  cases task with
  | evaluate e => exact ⟨_, Does.map (heval e m) hvalue⟩
  | evaluateAll es => exact ⟨_, Does.map (heval.evaluateAll es) fun _ _ _ hvs => hvs⟩
  | execute s => exact ⟨_, Does.map (hexec s m) hend⟩
  | executeAll ss => exact ⟨_, Does.map (hexec.executeAll ss) hend⟩
  | block chain body =>
    have hchain := hchains chain List.mem_cons_self
    exact ⟨_, Does.map (Does.inChain hchain (hexec.executeAll body)) hend⟩
  | call callee paren vs =>
    obtain ⟨hcallee, hvs⟩ := List.forall_mem_cons.1 hvalues
    exact ⟨_, Does.map (hexec.callValue hcallee hvs) hvalue⟩
  | invoke f vs =>
    obtain ⟨hf, hvs⟩ := List.forall_mem_append.1 hvalues
    exact ⟨_, Does.map (hexec.invoke (Callable.isIn_iff.2 ⟨hchains, hf⟩) hvs) hvalue⟩
  | closure c vs =>
    exact ⟨_, Does.map (hexec.runClosure (hchains c.chain List.mem_cons_self) hvalues) hvalue⟩
  | program ss => exact ⟨_, Does.map (does_interpret fuel ss) fun _ _ _ _ => List.forall_mem_nil _⟩

namespace Run

variable {r r' : Run} {S : Seen}

/-- The heap changes in steps until a run begins another one, and what that one holds is there. -/
theorem Begins.steps (h : r.Begins r') (hheap : r.machine.heap.Planted S)
    (hr : r.IsIn S r.machine.heap) :
    ∃ ds S', r.machine.heap.Steps S ds r'.machine.heap S' ∧ r'.IsIn S' r'.machine.heap := by
  obtain ⟨hchains, hvalues⟩ := hr
  obtain ⟨hchain, hchains⟩ := List.forall_mem_cons.1 hchains
  have hm : r.machine.Planted S := ⟨hheap, hchain⟩
  have hplain {S : Seen} {q : Run} (hq : q.machine.Planted S) (hchains : q.task.chains = [])
      (hvalues : q.task.values = []) : q.IsIn S q.machine.heap := by
    refine isIn_of_chain hq.chain ?_ ?_
    · rw [hchains]
      exact List.forall_mem_nil _
    · rw [hvalues]
      exact List.forall_mem_nil _
  have heval {S : Seen} {fuel e v m m'} (hm : Machine.Planted m S)
      (h : evaluate fuel e m = .ok v m') := ((does_evaluate_execute fuel).1 e m).of_ok hm h
  have hexec {S : Seen} {fuel s c m m'} (hm : Machine.Planted m S)
      (h : execute fuel s m = .ok c m') := ((does_evaluate_execute fuel).2 s m).of_ok hm h
  cases h with
  | first | argument | expression | statement | topLevel => exact ⟨_, S, .refl, hplain hm rfl rfl⟩
  | binaryRight h | logicalRight h | thenValue h | elseValue h | fieldValue h | arguments h
  | laterArguments h | thenOnly h | thenBranch h | elseBranch h | round h =>
    obtain ⟨S', hsteps, hm', -⟩ := heval hm h
    exact ⟨_, S', hsteps, hplain hm' rfl rfl⟩
  | laterStatements h | laterProgram h =>
    obtain ⟨S', hsteps, hm', -⟩ := hexec hm h
    exact ⟨_, S', hsteps, hplain hm' rfl rfl⟩
  | @call fuel _ _ es _ _ _ m' _ h hvs =>
    obtain ⟨S₁, hsteps₁, hm₁, hf⟩ := heval hm h
    have hall := DoesExprs.evaluateAll (does_evaluate_execute fuel).1 (m := m') (S := S₁) es
    obtain ⟨S₂, hsteps₂, hm₂, hvs⟩ := hall.of_ok hm₁ hvs
    exact ⟨_, S₂, hsteps₁.trans hsteps₂, isIn_of_chain hm₂.chain (List.forall_mem_nil _)
      (List.forall_mem_cons.2 ⟨hf.mono hsteps₂.within, hvs⟩)⟩
  | laterRounds h _ hbody =>
    obtain ⟨S₁, hsteps₁, hm₁, -⟩ := heval hm h
    obtain ⟨S₂, hsteps₂, hm₂, -⟩ := hexec hm₁ hbody
    exact ⟨_, S₂, hsteps₁.trans hsteps₂, hplain hm₂ rfl rfl⟩
  | @block _ _ m =>
    have hempty : ∀ v ∈ (∅ : Frame).values, m.heap.Has v := List.forall_mem_nil _
    have hstep := (Heap.Step.frame hchain hempty).single
    exact ⟨_, _, hstep, isIn_of_chain (.inl hchain) (List.forall_mem_singleton.2 (.inr rfl))
      (List.forall_mem_nil _)⟩
  | body => exact ⟨_, S, .refl, hplain ⟨hheap, hchains _ List.mem_cons_self⟩ rfl rfl⟩
  | invoke hf =>
    obtain ⟨hcallee, hvs⟩ := List.forall_mem_cons.1 hvalues
    obtain ⟨hfchains, hfvalues⟩ := Callable.isIn_iff.1 (hheap.callable? hcallee hf)
    exact ⟨_, S, .refl, isIn_of_chain hchain hfchains (List.forall_mem_append.2 ⟨hfvalues, hvs⟩)⟩
  | closure => exact ⟨_, S, .refl, isIn_of_chain hchain hchains hvalues⟩
  | @initializer _ c init _ _ _ m _ _ hi hinit hbound =>
    cases hi
    cases hbound
    obtain ⟨hc, hvs⟩ := List.forall_mem_cons.1 hvalues
    have hmade : m.heap.Steps S [.made c] (m.heap.newInstance c).2 S := (Heap.Step.made hc).single
    have hinstance : (m.heap.newInstance c).2.Has (.instance_ m.heap.instances.size) := by
      simp [Heap.newInstance, Heap.Has]
    have hstep := hmade.step
      (.frame ((hmade.planted hheap).findMethod? hinit) (hinstance.singleton "this"))
    exact ⟨_, _, hstep, isIn_of_chain (.inl hchain) (List.forall_mem_singleton.2 (.inr rfl))
      fun v hv => (hvs v hv).mono hstep.within⟩
  | @closureBody _ c vs m =>
    have hframe : ∀ v ∈ (callFrame c.decl.params vs).values, m.heap.Has v := fun v hv =>
      hvalues v (mem_of_mem_callFrame hv)
    have hstep := (Heap.Step.frame (hchains c.chain List.mem_cons_self) hframe).single
    exact ⟨_, _, hstep, isIn_of_chain (.inl hchain) (List.forall_mem_singleton.2 (.inr rfl))
      (List.forall_mem_nil _)⟩

/-- At each moment of a run the heap has changed in steps since the start, and what the active runs
hold is there. -/
theorem Active.steps {start : Run} {outer : List Run} (h : start.Active (r :: outer))
    (hheap : start.machine.heap.Planted S) (hstart : start.IsIn S start.machine.heap) :
    ∃ ds S', start.machine.heap.Steps S ds r.machine.heap S' ∧
      ∀ q ∈ r :: outer, q.IsIn S' r.machine.heap := by
  induction h using Active.stack_induction with
  | start =>
    exact ⟨[], S, .refl, List.forall_mem_singleton.2 hstart⟩
  | @begin q q' _ _ hbegins ih =>
    obtain ⟨ds, S₁, hsteps, hq⟩ := ih
    obtain ⟨ds', S₂, hsteps', hq'⟩ :=
      hbegins.steps (hsteps.planted hheap) (hq q List.mem_cons_self)
    exact ⟨ds ++ ds', S₂, hsteps.trans hsteps',
      List.forall_mem_cons.2 ⟨hq', fun p hp => (hq p hp).mono hsteps'⟩⟩

end Run

/-! ## Looking things up -/

namespace Heap

def superclass? (h : Heap) (c : ClassId) : Option ClassId := (h.cls c).ancestors.head?

/-- A chain is the way from a frame that is there, by the frames around frames. -/
def Nests (h : Heap) (around : FrameId → Option FrameId) (chain : Chain) : Prop :=
  ∃ i < h.frames.size, Way around i chain

/-- The frames around frames and the superclasses of classes were there before, so the ways along
them are finite. A way out ends in the global frame, and functions and methods see such ways. -/
structure Linked (h : Heap) (around : FrameId → Option FrameId) : Prop where
  around_lt : ∀ i j, around i = some j → j < i
  superclass_lt : ∀ c d, h.superclass? c = some d → d < c
  frames : ∀ i < h.frames.size, ∃ chain, Way around i chain ∧ Rooted h.frames.size chain
  functions : ∀ f < h.functions.size, h.Nests around (h.function f).chain
  methods : ∀ c, ∀ k ∈ (h.cls c).methods.values, h.Nests around k.chain
  lineages : ∀ c < h.classes.size, Way h.superclass? c (h.lineage c)

/-- Names are looked up from frame to frame around it and from class to superclass, in no more steps
than there are objects up to the first one. -/
structure Finds (h : Heap) (around : FrameId → Option FrameId) : Prop where
  get : ∀ i < h.frames.size, ∀ chain, Way around i chain → ∀ name, ∃ found,
    follow around (fun j => (h.frames.frame j).get? name) (i + 1) i = some found ∧
      h.frames.get name chain = found.elim (.error (.undefinedVariable name)) .ok
  assign : ∀ i < h.frames.size, ∀ chain, Way around i chain → ∀ name, ∃ found,
    follow around (fun j => if (h.frames.frame j).contains name then some j else none) (i + 1) i =
        some found ∧
      ∀ v, h.frames.assign name v chain =
        found.elim (.error (.undefinedVariable name)) fun j => .ok (h.frames.define j name v)
  getAt : ∀ i < h.frames.size, ∀ chain, Way around i chain → ∀ d name,
    h.frames.getAt chain d name =
      (hops around d i).elim (.error (.unresolvableDepth name)) fun j =>
        ((h.frames.frame j).get? name).elim (.error (.undefinedAtDistance name)) .ok
  assignAt : ∀ i < h.frames.size, ∀ chain, Way around i chain → ∀ d name v,
    h.frames.assignAt chain d name v =
      (hops around d i).elim (.error (.unresolvableDepth name)) fun j =>
        .ok (h.frames.define j name v)
  findMethod? : ∀ c < h.classes.size, ∀ name,
    follow h.superclass? (fun d => (h.cls d).methods.get? name) (c + 1) c =
      some (h.findMethod? (h.lineage c) name)
  member? : ∀ c < h.classes.size, ∀ i name,
    follow h.superclass? (fun d => (((h.inst i).fields.get? name).map Member.field).or
      (((h.cls d).methods.get? name).map .method)) (c + 1) c = some (h.member? c i name)
  classField? : ∀ c < h.classes.size, ∀ name,
    follow h.superclass? (fun d => (h.cls d).fields.get? name) (c + 1) c =
      some (h.classField? c name)

end Heap

theorem Frames.get_eq (fs : Frames) (name : String) (chain : Chain) :
    fs.get name chain = (chain.findSome? fun j => (fs.frame j).get? name).elim
      (.error (.undefinedVariable name)) .ok := by
  induction chain with
  | nil => rfl
  | cons i outer ih =>
    rw [get, List.findSome?_cons]
    cases (fs.frame i).get? name with
    | none => exact ih
    | some v => rfl

theorem Frames.holder_eq (fs : Frames) (name : String) (chain : Chain) :
    fs.holder name chain =
      (chain.findSome? fun j => if (fs.frame j).contains name then some j else none).elim
        (.error (.undefinedVariable name)) .ok := by
  induction chain with
  | nil => rfl
  | cons i outer ih =>
    rw [holder, List.findSome?_cons]
    cases (fs.frame i).contains name with
    | false => exact ih
    | true => rfl

namespace Heap

variable {h : Heap}

/-- A member is looked for in the instance at each class on the way, which comes to the same as
looking there first. -/
theorem member?_eq (h : Heap) (c : ClassId) (i : InstanceId) (name : String) :
    h.member? c i name = (h.lineage c).findSome? fun d =>
      (((h.inst i).fields.get? name).map Member.field).or
        (((h.cls d).methods.get? name).map .method) := by
  rw [member?]
  cases (h.inst i).fields.get? name with
  | some v => rfl
  | none => simp [findMethod?, List.map_findSome?, Function.comp_def]

/-- Ways are finite, so following them ends and finds what the lookups find. -/
theorem Linked.finds {around : FrameId → Option FrameId} (hh : h.Linked around) :
    h.Finds around where
  get i _ chain hway name :=
    ⟨_, hway.follow_eq hh.around_lt _ (Nat.lt_succ_self i), h.frames.get_eq name chain⟩
  assign i _ chain hway name := by
    refine ⟨_, hway.follow_eq hh.around_lt _ (Nat.lt_succ_self i), fun v => ?_⟩
    rw [Frames.assign, Frames.holder_eq]
    cases chain.findSome? _ with
    | none | some j => rfl
  getAt i _ chain hway d name := by
    rw [Frames.getAt_eq, hway.getElem?_eq]
    cases hops around d i with
    | none => rfl
    | some j =>
      cases hv : (h.frames.frame j).get? name with
      | none | some v => simp [hv]
  assignAt i _ chain hway d name v := by
    rw [Frames.assignAt_eq, hway.getElem?_eq]
    cases hops around d i with
    | none | some j => rfl
  findMethod? c hc name := (hh.lineages c hc).follow_eq hh.superclass_lt _ (Nat.lt_succ_self c)
  member? c hc i name := by
    rw [member?_eq]
    exact (hh.lineages c hc).follow_eq hh.superclass_lt _ (Nat.lt_succ_self c)
  classField? c hc name := (hh.lineages c hc).follow_eq hh.superclass_lt _ (Nat.lt_succ_self c)

theorem Closed.superclass_lt (hh : h.Closed) {c d : ClassId} (hd : h.superclass? c = some d) :
    d < c := by
  by_cases hc : c < h.classes.size
  · exact hh.ancestors c hc d (List.mem_of_head? hd)
  · rw [superclass?, cls_of_le (Nat.le_of_not_lt hc)] at hd
    cases hd

theorem way_lineage {t : Chronicle} (ht : t.Told h) (hh : h.Closed) {c : ClassId}
    (hc : c < h.classes.size) : Way h.superclass? c (h.lineage c) := by
  have hline := ht.line hh hc
  generalize hl : h.lineage c = line at hline
  induction hline generalizing c with
  | @root c' d hd hsuperclass =>
    obtain ⟨rfl, -⟩ := List.cons.inj hl
    refine .last ?_
    rw [superclass?, ht.ancestors c d hd, hsuperclass]
    rfl
  | @sub c' e d line hd hsuperclass hline ih =>
    obtain ⟨rfl, -⟩ := List.cons.inj hl
    have he : h.superclass? c = some e := by
      rw [superclass?, ht.ancestors c d hd, hsuperclass]
      rfl
    exact .step he (ih (Nat.lt_trans (hh.superclass_lt he) hc) (ht.lineage_eq hline))

/-- The heap that steps lead to from an initial machine. -/
theorem Steps.exists_linked {sink : Sink} {clock : Clock} {ds : List Deed} {S : Seen}
    (hs : (Machine.initial sink clock).heap.Steps (Rooted 1) ds h S) :
    ∃ around, h.Linked around ∧ ∀ c, S c → h.Nests around c := by
  have hinitial : (Machine.initial sink clock).heap.Planted (Rooted 1) :=
    (Machine.closed_initial sink clock).planted.heap
  have hh := hs.planted hinitial
  have hS := hs.coherent hinitial .initial
  have ht : (chronicle ([] ++ ds)).Told h := hs.told hinitial (Chronicle.told_initial sink clock)
  obtain ⟨around, haround, hway⟩ := hS.exists_around
  have hnests : ∀ c, S c → h.Nests around c := by
    intro c hc
    have hrooted := hh.rooted c hc
    cases hrooted with
    | global hsize => exact ⟨_, hsize, hway _ _ hc⟩
    | inner hi => exact ⟨_, hi, hway _ _ hc⟩
  refine ⟨around, ⟨fun i j hj => ?_, fun c d => hh.closed.superclass_lt, fun i hi => ?_,
    fun f hf => hnests _ (hh.functions f hf), fun c k hk => hnests _ (hh.methods c k hk),
    fun c hc => way_lineage ht hh.closed hc⟩, hnests⟩
  · obtain ⟨c, hc⟩ := (haround i j).1 hj
    have hrooted := hh.rooted _ hc
    cases hrooted with
    | inner _ hbelow => exact hbelow j List.mem_cons_self
  · obtain ⟨c, hc⟩ := hS.all i hi
    exact ⟨i :: c, hway i c hc, hh.rooted _ hc⟩

end Heap

/-- At each moment of a run of any program, after whatever programs were run and however they ended,
everything that is referred to is there, and the ways from frames outward and from classes to those
they inherit from are finite. So each look for a name comes to an end. -/
theorem heap_stays_wellFounded (sink : Sink) (clock : Clock) (jobs : List Job) (j : Job) {r : Run}
    {outer : List Run}
    (h : Run.Active ⟨j.fuel, .program j.program, j.start ((Machine.initial sink clock).leaves jobs)⟩
      (r :: outer)) :
    (∀ m, m = r.machine ∨ m = r.after → m.Closed ∧ ∃ around, m.heap.Linked around ∧
      m.heap.Finds around ∧ m.heap.Nests around m.chain ∧ ∀ q ∈ r :: outer,
        (∀ c ∈ q.chains, m.heap.Nests around c) ∧ m.heap.HasAll q.task.values) ∧
    ∀ a m, r.result = .ok a m → m.heap.HasAll a.contents := by
  have hinitial := (Machine.closed_initial sink clock).planted
  obtain ⟨S, hhistory, hplanted⟩ := hinitial.history jobs
  obtain ⟨ds, S₁, hsteps, hall⟩ := h.steps hplanted.heap
    (Run.isIn_of_chain hplanted.chain (List.forall_mem_nil _) (List.forall_mem_nil _))
  have hbefore := hhistory.trans hsteps
  obtain ⟨hr, hvalues⟩ := hall r List.mem_cons_self
  obtain ⟨hchain, hchains⟩ := List.forall_mem_cons.1 hr
  have hm : r.machine.Planted S₁ := ⟨hbefore.planted hinitial.heap, hchain⟩
  obtain ⟨ds', hdoes⟩ := Task.does r.fuel hchains hvalues
  obtain ⟨S₂, hsteps', hchain'⟩ := (hdoes hm).after
  have hmoment : ∀ {m : Machine} {ds : List Deed} {S' : Seen},
      (Machine.initial sink clock).heap.Steps (Rooted 1) ds m.heap S' → m.Planted S' →
      (∀ q ∈ r :: outer, q.IsIn S' m.heap) → m.Closed ∧ ∃ around, m.heap.Linked around ∧
        m.heap.Finds around ∧ m.heap.Nests around m.chain ∧ ∀ q ∈ r :: outer,
          (∀ c ∈ q.chains, m.heap.Nests around c) ∧ m.heap.HasAll q.task.values := by
    intro m ds S' hs hm hall
    obtain ⟨around, hlinked, hnests⟩ := hs.exists_linked
    exact ⟨hm.closed, around, hlinked, hlinked.finds, hnests _ hm.chain, fun q hq =>
      ⟨fun c hc => hnests c ((hall q hq).1 c hc), (hall q hq).2⟩⟩
  refine ⟨?_, fun a m ha => ?_⟩
  · rintro m (rfl | rfl)
    · exact hmoment hbefore hm hall
    · exact hmoment (hbefore.trans hsteps') (hm.of_steps hsteps' hchain') fun q hq =>
        (hall q hq).mono hsteps'
  · obtain ⟨_, _, _, hcontents⟩ := hdoes.of_ok hm ha
    exact hcontents

/-- A class that inherits from one of the same name, and a block that is run later. -/
theorem heap_stays_wellFounded_redeclared :
    let name (text : String) : Token := ⟨.symbol .identifier, text, 1⟩
    let method : FunctionDecl := ⟨name "m", [], []⟩
    let program : List Stmt := [.classDecl ⟨name "A", none, [], []⟩,
      .classDecl ⟨name "A", some (.var 0 (name "A")), [method], []⟩]
    let m := (Machine.initial {} {}).leaves [⟨2, ∅, program⟩]
    let r : Run := ⟨0, .block [2, 0] [], { m with heap := (m.heap.newFrame ∅).2, locals := ∅ }⟩
    (∃ outer, Run.Active ⟨1, .program [.block []], Job.start ⟨1, ∅, [.block []]⟩ m⟩ (r :: outer)) ∧
      m.heap.superclass? 1 = some 0 ∧ r.machine.Closed ∧
      ∃ around, r.machine.heap.Linked around ∧ r.machine.heap.Finds around ∧
        r.machine.heap.Nests around [2, 0] ∧ r.machine.heap.Nests around [1, 0] := by
  intro name method program m r
  let globals : Frame := ⟨Machine.initialGlobals.entries ++ [("A", .class_ 1)]⟩
  let m₁ : Machine := { Machine.initial {} {} with
    heap :=
      { frames := ⟨#[globals, ⟨[("super", .class_ 0)]⟩]⟩
        classes := #[⟨"A", [], ∅, ∅⟩, ⟨"A", [0], methodTable [1, 0] [method], ∅⟩] } }
  have hm : m = m₁ := rfl
  have hactive : Run.Active ⟨1, .program [.block []], Job.start ⟨1, ∅, [.block []]⟩ m⟩
      [r, ⟨1, .execute (.block []), Job.start ⟨1, ∅, [.block []]⟩ m⟩,
        ⟨1, .program [.block []], Job.start ⟨1, ∅, [.block []]⟩ m⟩] := by
    simp only [r, hm]
    exact .begin (.begin .start .topLevel) .block
  obtain ⟨hbefore, -⟩ :=
    heap_stays_wellFounded {} {} [⟨2, ∅, program⟩] ⟨1, ∅, [.block []]⟩ hactive
  obtain ⟨hclosed, around, hlinked, hfinds, -, hruns⟩ := hbefore r.machine (.inl rfl)
  refine ⟨⟨_, hactive⟩, by rw [hm]; rfl, hclosed, around, hlinked, hfinds, ?_, ?_⟩
  · exact (hruns r List.mem_cons_self).1 [2, 0] (by simp [Run.chains, Task.chains, r])
  · refine hlinked.methods 1 ⟨method, [1, 0], false⟩ ?_
    simp only [r, hm]
    exact List.mem_singleton_self _

end Lox
