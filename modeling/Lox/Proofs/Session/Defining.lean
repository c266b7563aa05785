import Lox.Proofs.Session.Receivers
import Lox.Proofs.Session.Superclasses

/-!
# Names that are new in their frames

A declaration gives its name a value in the innermost frame. If this is a local frame then it does
not have the name before, because no scope declares a name twice and code refers to a name in a
frame only if the name is declared before it. There is one exception: the initializer of a variable
may assign the variable itself, which puts the name into the frame before the declaration does.

A frame and a name that it does not have are watched while a statement runs. Unless the statement
declares the name in the frame, the frame does not get it.
-/

namespace Lox

open Exec

variable {vs : List Visit} {before : List Event} {i : FrameId} {x : String} {fuel : Nat}

/-! ## Frames that are watched -/

/-- A local frame may be watched for a name that it does not have. -/
theorem Inv.watch {heap : Heap} {locals : Locals} (h : Inv vs before heap locals)
    (hi : i < heap.frames.size) (hlocal : i ≠ globalFrame)
    (hx : (heap.frames.frame i).get? x = none) : @Inv ⟨some (i, x)⟩ vs before heap locals := by
  obtain ⟨hallowed, hwithin, hrecorded, hsize, hopenings, hplaced, hfunctions, hmethods, -⟩ := h
  refine @Inv.mk ⟨some (i, x)⟩ _ _ _ _ hallowed hwithin hrecorded hsize hopenings hplaced
    hfunctions hmethods ?_
  rintro p ⟨⟩
  exact ⟨hi, hlocal, hx⟩

section

variable {m m' : Machine} {layers : List Layer} {cls : ClassRole} {e : Expr}

/-- Behind a statement that declares another name in a frame, or none, the frame still does not have
a name. -/
theorem vacant_of_execute {s : Stmt} {c : Completion} (hwf : s.WellFormed)
    (hvs : ∀ v ∈ s.visits cls layers, v ∈ vs) (hsettled : Walk.Settled layers)
    (hinv : Inv vs before m.heap m.locals) (hmatches : Matches m.heap.frames before layers m.chain)
    (hi : m.chain.head? = some i) (hlocal : i ≠ globalFrame)
    (hx : (m.heap.frames.frame i).get? x = none) (hs : ∀ t ∈ s.declared?, t.lexeme ≠ x)
    (h : execute fuel s m = .ok c m') :
    m'.chain = m.chain ∧ (m'.heap.frames.frame i).get? x = none := by
  have hlt := hmatches.bounded i (List.mem_of_mem_head? hi)
  let _ : Vacancy := ⟨some (i, x)⟩
  have hspares : Spares m [s] := by
    rintro p ⟨⟩ - s' hs'
    rwa [List.mem_singleton.1 hs']
  have hsafe := (safe_evaluate_execute vs fuel).2 s cls layers m before hwf hvs hsettled hspares
    ⟨hinv.watch hlt hlocal hx, hmatches, .of_settled hsettled⟩
  obtain ⟨hmoves, -⟩ := hsafe.of_ok h
  exact ⟨hmoves.chain, (hmoves.inv.vacant _ rfl).2.2⟩

/-! ## Initializers -/

/-- An expression assigns a variable: one of its nodes does so. It does not matter what the
expression stands in. -/
def Expr.Assigns (e : Expr) (x : String) : Prop :=
  ∃ v ∈ e.visits .outside [], v.use = .write ∧ v.name = x

end

theorem Expr.standingAt_mem_visits {cls : ClassRole} {layers : List Layer} {v : Visit} (e : Expr)
    (hv : v ∈ e.visits cls layers) (cls' : ClassRole) (layers' : List Layer) :
    v.standingAt cls' layers' ∈ e.visits cls' layers' := by
  rw [e.visits_eq_map cls' cls layers' layers]
  exact List.mem_map_of_mem hv

section

variable {m m' : Machine} {l : Layer} {layers : List Layer} {cls : ClassRole} {e : Expr}

/-- A scope without a name that waits in it is that of a class body if it is so with the name. -/
theorem Within.of_await (h : Within cls (Layers.await x (l :: layers))) :
    Within cls (l :: layers) :=
  h.change fun hl => ⟨fun hmem => hl.1 (List.mem_cons_of_mem _ hmem),
    fun hmem => hl.2.1 (List.mem_cons_of_mem _ hmem), hl.2.2⟩

theorem Layers.depth?_await {name : String} (h : name ≠ x) (layers : List Layer) :
    depth? (await x layers) name = depth? layers name := by
  cases layers with
  | nil => rfl
  | cons l outer => simp [await, depth?_cons, h]

/-- The nodes of an initializer that does not assign its variable have nothing to do with the
variable. So they may as well stand in front of the declaration. -/
theorem Inv.before_declaration {heap : Heap} {locals : Locals} {name : Token} (hname : name.IsName)
    (h : Inv vs before heap locals) (he : e.WellFormed)
    (hvs : ∀ v ∈ e.visits cls (Layers.await name.lexeme (l :: layers)), v ∈ vs)
    (hl : l.pending = none) (hassigns : ¬ e.Assigns name.lexeme) :
    Inv (vs ++ e.visits cls (l :: layers)) before heap locals := by
  have hsame : ∀ v ∈ e.visits cls (l :: layers), v.Allowed ∧ Within v.cls v.layers ∧
      locals[v.id]? = Layers.depth? v.layers v.name := by
    rintro ⟨id, x, use, cls', layers'⟩ hv
    obtain ⟨rfl, rfl⟩ := e.mem_visits hv
    have hthere := e.standingAt_mem_visits hv cls' (Layers.await name.lexeme (l :: layers))
    have hallowed := h.allowed _ (hvs _ hthere)
    have hkeyword := e.keyword_of_mem_visits he hv
    have hne : x ≠ name.lexeme := by
      rintro rfl
      cases use with
      | read => exact hallowed _ rfl List.mem_cons_self rfl
      | write => exact hassigns ⟨_, e.standingAt_mem_visits hv .outside [], rfl, rfl⟩
      | receiver => exact hname.1 (hkeyword.1 rfl)
      | superclass => exact hname.2 (hkeyword.2 rfl)
    refine ⟨?_, (h.within _ (hvs _ hthere)).of_await, ?_⟩
    · cases use with
      | read =>
        rintro l' ⟨⟩ -
        simp [hl]
      | write => exact trivial
      | receiver | superclass => exact hallowed
    · rw [← Layers.depth?_await hne]
      exact h.recorded _ (hvs _ hthere)
  refine h.extend (fun v => List.mem_append_left _) ?_ ?_ ?_
  · exact List.forall_mem_append.2 ⟨h.allowed, fun v hv => (hsame v hv).1⟩
  · exact List.forall_mem_append.2 ⟨h.within, fun v hv => (hsame v hv).2.1⟩
  · exact List.forall_mem_append.2 ⟨h.recorded, fun v hv => (hsame v hv).2.2⟩

/-- Behind an initializer that does not assign its variable, the frame still does not have the name
of the variable. -/
theorem vacant_of_initializer {name : Token} {a : Value} (hname : name.IsName) (he : e.WellFormed)
    (hvs : ∀ v ∈ e.visits cls (Layers.await name.lexeme layers), v ∈ vs)
    (hsettled : Walk.Settled layers) (hinv : Inv vs before m.heap m.locals)
    (hmatches : Matches m.heap.frames before layers m.chain) (hassigns : ¬ e.Assigns name.lexeme)
    (hlocal : ∀ i ∈ m.chain.head?, i ≠ globalFrame →
      (m.heap.frames.frame i).get? name.lexeme = none)
    (h : evaluate fuel e m = .ok a m') :
    m'.chain = m.chain ∧ ∀ i ∈ m.chain.head?, i ≠ globalFrame →
      (m'.heap.frames.frame i).get? name.lexeme = none := by
  have hawait : Situated vs before m (Layers.await name.lexeme layers) :=
    ⟨hinv, hmatches.await hsettled _, .nowhere⟩
  obtain ⟨hmoves, -⟩ := ((safe_evaluate_execute vs fuel).1 e cls _ m before he hvs hawait).of_ok h
  refine ⟨hmoves.chain, fun i hi hne => ?_⟩
  have hlt := hmatches.bounded i (List.mem_of_mem_head? hi)
  have hx := hlocal i hi hne
  cases layers with
  | nil =>
    generalize m.chain = chain at hmatches hi
    cases hmatches
    exact absurd (Option.some.inj hi).symm hne
  | cons l layers =>
    have hinv' := hinv.before_declaration hname he hvs (hsettled l rfl) hassigns
    let _ : Vacancy := ⟨some (i, name.lexeme)⟩
    have hs : Situated (vs ++ e.visits cls (l :: layers)) before m (l :: layers) :=
      ⟨hinv'.watch hlt hne hx, hmatches, .of_settled hsettled⟩
    have hs' := Run.situated_of_evaluate he (fun v hv => List.mem_append_right _ hv) hs h
    exact (hs'.inv.vacant _ rfl).2.2

end

/-! ## Runs -/

/-- If the innermost frame of a chain is a local one then it has none of the names that statements
declare. -/
def Frames.Lack (frames : Frames) (chain : Chain) (ss : List Stmt) : Prop :=
  ∀ i ∈ chain.head?, i ≠ globalFrame → ∀ x ∈ Stmts.declared ss, (frames.frame i).get? x = none

namespace Run

variable {r r' : Run}

/-- What a run is still to declare in the innermost frame is declared once and not in the frame. -/
def Fresh (r : Run) : Prop :=
  match r.task with
  | .execute s => r.machine.heap.frames.Lack r.machine.chain [s]
  | .executeAll ss =>
    (Stmts.declared ss).Nodup ∧ r.machine.heap.frames.Lack r.machine.chain ss
  | .block chain ss => (Stmts.declared ss).Nodup ∧ r.machine.heap.frames.Lack chain ss
  | _ => True

end Run

theorem Stmts.declared_cons (s : Stmt) (ss : List Stmt) :
    Stmts.declared (s :: ss) = Stmts.declared [s] ++ Stmts.declared ss := by
  cases h : s.declared? <;> simp [Stmts.declared, h]

theorem Stmts.mem_declared_singleton {s : Stmt} :
    x ∈ Stmts.declared [s] ↔ ∃ t, s.declared? = some t ∧ t.lexeme = x := by
  cases h : s.declared? <;> simp [Stmts.declared, h, eq_comm]

theorem Frames.lack_of_declared?_eq_none {frames : Frames} {chain : Chain} {s : Stmt}
    (h : s.declared? = none) : frames.Lack chain [s] := by
  intro i _ _ x hx
  obtain ⟨t, ht, -⟩ := Stmts.mem_declared_singleton.1 hx
  rw [h] at ht
  cases ht

/-- A frame that is new has only what it is made with. -/
theorem Frames.lack_push {frames : Frames} {frame : Frame} {chain : Chain} {ss : List Stmt}
    (h : ∀ x ∈ Stmts.declared ss, frame.get? x = none) :
    (frames.push frame).Lack (frames.next :: chain) ss := by
  intro i hi _ x hx
  obtain rfl := Option.some.inj hi
  rw [frame_push_next]
  exact h x hx

namespace Run

variable {r r' : Run}

/-- Behind a statement, what is declared behind it is not in the frame. -/
theorem fresh_laterStatements {s : Stmt} {ss : List Stmt} {m m' : Machine}
    (hr : Run.Placed vs before ⟨fuel, .executeAll (s :: ss), m⟩)
    (hfresh : Fresh ⟨fuel, .executeAll (s :: ss), m⟩) (h : execute fuel s m = .ok .normal m') :
    Fresh ⟨fuel, .executeAll ss, m'⟩ := by
  obtain ⟨hinv, hnil | ⟨cls, layers, hwf, hvs, hsettled, hmatches⟩⟩ := hr
  · cases hnil
  obtain ⟨hnodup, hlack⟩ := hfresh
  rw [Stmts.declared_cons] at hnodup
  obtain ⟨-, hnodup', hdisjoint⟩ := List.nodup_append.1 hnodup
  have hfirst := (List.forall_mem_append.1 hvs).1
  have hsafe := (safe_evaluate_execute vs fuel).2 s cls layers m before hwf.1 hfirst hsettled
    .nowhere ⟨hinv, hmatches, .nowhere⟩
  refine ⟨hnodup', fun i hi hne x hx => ?_⟩
  have hi' : m.chain.head? = some i := by
    rw [← (hsafe.of_ok h).1.chain]
    exact hi
  have hmem : x ∈ Stmts.declared (s :: ss) := by
    rw [Stmts.declared_cons]
    exact List.mem_append_right _ hx
  refine (vacant_of_execute hwf.1 hfirst hsettled hinv hmatches hi' hne (hlack i hi' hne x hmem)
    (fun t ht => ?_) h).2
  exact hdisjoint t.lexeme (Stmts.mem_declared_singleton.2 ⟨t, ht, rfl⟩) x hx

/-- The names that a run is still to declare stay new from a run to one that it begins. -/
theorem fresh_of_begins (h : r.Begins r') (hr : r.Placed vs before) (horderly : r.Orderly)
    (hfresh : r.Fresh) : r'.Fresh := by
  cases h with
  | thenOnly =>
    obtain ⟨-, -, -, hwf, -⟩ := hr
    exact Frames.lack_of_declared?_eq_none hwf.2.1
  | thenBranch =>
    obtain ⟨-, -, -, hwf, -⟩ := hr
    exact Frames.lack_of_declared?_eq_none hwf.2.1.1
  | elseBranch =>
    obtain ⟨-, -, -, hwf, -⟩ := hr
    exact Frames.lack_of_declared?_eq_none hwf.2.2.1
  | round =>
    obtain ⟨-, -, -, hwf, -⟩ := hr
    exact Frames.lack_of_declared?_eq_none hwf.2.1
  | laterRounds => exact Frames.lack_of_declared?_eq_none rfl
  | block =>
    obtain ⟨path, hdistinct⟩ := horderly.2.2
    exact ⟨hdistinct _ List.mem_cons_self _ List.mem_cons_self, Frames.lack_push fun x _ => rfl⟩
  | body => exact hfresh
  | statement =>
    intro i hi hne x hx
    refine hfresh.2 i hi hne x ?_
    rw [Stmts.declared_cons]
    exact List.mem_append_left _ hx
  | laterStatements h => exact fresh_laterStatements hr hfresh h
  | closureBody =>
    -- the parameters and what the body declares are in one scope
    obtain ⟨-, hnodup, hdisjoint⟩ := List.nodup_append.1 (Region.declares_call _ ▸ horderly.2.2.1)
    refine ⟨hnodup, Frames.lack_push fun x hx => ?_⟩
    exact get?_foldl_insert_of_notMem (fun hmem => hdisjoint x hmem x hx rfl) ∅
  | topLevel =>
    obtain ⟨-, -, -, hmatches⟩ := hr
    intro i hi hne
    generalize Machine.chain _ = chain at hmatches hi
    cases hmatches
    exact absurd (Option.some.inj hi).symm hne
  | _ => exact trivial

/-! ## Definitions -/

/-- A run defines a name in a frame, with the frames as they are right before that. A declaration
does so in the innermost frame, behind its initializer or its superclass clause. A call does so for
its parameters, one after the other, in a frame of its own, and there is a frame of its own for the
superclass of a class and for the receiver of a method. -/
inductive Defines : Run → Frames → FrameId → String → Prop
  | uninitialized {fuel : Nat} {name : Token} {i : FrameId} {m : Machine}
      (hi : m.chain.head? = some i) :
    Defines ⟨fuel + 1, .execute (.varDecl name none), m⟩ m.heap.frames i name.lexeme
  | initialized {fuel : Nat} {name : Token} {e : Expr} {v : Value} {i : FrameId} {m m' : Machine}
      (he : evaluate fuel e m = .ok v m') (hi : m'.chain.head? = some i) :
    Defines ⟨fuel + 1, .execute (.varDecl name (some e)), m⟩ m'.heap.frames i name.lexeme
  | function {fuel : Nat} {decl : FunctionDecl} {i : FrameId} {m : Machine}
      (hi : m.chain.head? = some i) :
    Defines ⟨fuel + 1, .execute (.funDecl decl), m⟩ m.heap.frames i decl.name.lexeme
  | cls {fuel : Nat} {decl : ClassDecl} {c : Option ClassId} {i : FrameId} {m m' : Machine}
      (hc : superclassOf (evaluate fuel) decl.name decl.superclass m = .ok c m')
      (hi : m'.chain.head? = some i) :
    Defines ⟨fuel + 1, .execute (.classDecl decl), m⟩ m'.heap.frames i decl.name.lexeme
  | superclass {fuel : Nat} {decl : ClassDecl} {c : ClassId} {i : FrameId} {m m' : Machine}
      (hc : superclassOf (evaluate fuel) decl.name decl.superclass m = .ok (some c) m')
      (hi : m'.chain.head? = some i) :
    Defines ⟨fuel + 1, .execute (.classDecl decl), m⟩
      ((m'.heap.frames.define i decl.name.lexeme .nil).push ∅)
      (m'.heap.frames.define i decl.name.lexeme .nil).next "super"
  | parameter {fuel : Nat} {c : Closure} {vs : List Value} {k : Nat} {p : Token} {m : Machine}
      (hp : c.decl.params[k]? = some p) :
    Defines ⟨fuel, .closure c vs, m⟩
      (m.heap.frames.push (callFrame (c.decl.params.take k) vs)) m.heap.frames.next p.lexeme
  | receiver {r : Run} {h : Heap} {method : Closure} {o : InstanceId} (hr : r.Binds h method o) :
    Defines r (h.frames.push ∅) h.frames.next "this"

/-- A parameter is not among those before it. -/
theorem get?_callFrame_take {params : List Token} (vs : List Value) {k : Nat} {p : Token}
    (hnodup : (params.map Token.lexeme).Nodup) (hp : params[k]? = some p) :
    (callFrame (params.take k) vs).get? p.lexeme = none := by
  obtain ⟨hlt, rfl⟩ := List.getElem?_eq_some_iff.1 hp
  refine get?_foldl_insert_of_notMem (fun hmem => ?_) ∅
  rw [← List.take_append_drop k params, List.map_append] at hnodup
  refine (List.nodup_append.1 hnodup).2.2 _ hmem _ ?_ rfl
  rw [List.drop_eq_getElem_cons hlt]
  exact List.mem_cons_self

/-- The superclass clause of a declaration leaves the machine as it is or as its expression leaves
it. -/
theorem superclassOf_eq_ok {eval : Expr → Exec Value} {name : Token} {o : Option Expr}
    {c : Option ClassId} {m m' : Machine} (h : superclassOf eval name o m = .ok c m') :
    o = none ∧ m' = m ∨ ∃ e v, o = some e ∧ eval e m = .ok v m' := by
  cases o with
  | none =>
    cases h
    exact .inl ⟨rfl, rfl⟩
  | some e =>
    simp only [superclassOf, Bind.bind, EStateM.bind] at h
    cases he : eval e m with
    | error halt m'' =>
      rw [he] at h
      cases h
    | ok v m'' =>
      rw [he] at h
      cases v with
      | class_ k =>
        cases h
        exact .inr ⟨e, _, rfl, he⟩
      | _ => cases h

/-- A superclass clause reads a variable. -/
theorem not_assigns_of_superclass {e : Expr} (h : Expr.SuperclassWellFormed (some e)) :
    ¬ e.Assigns x := by
  rintro ⟨v, hv, huse, -⟩
  cases e with
  | var id name =>
    obtain rfl := List.mem_singleton.1 hv
    cases huse
  | _ => exact h

/-- A run whose declaration is new defines names that are new, unless it assigns its variable before
it declares it. -/
theorem Fresh.of_defines {frames : Frames} (hfresh : r.Fresh) (hr : r.Placed vs before)
    (horderly : r.Orderly) (hdefines : r.Defines frames i x) (hlocal : i ≠ globalFrame)
    (hassigns : ∀ name e, r.task = .execute (.varDecl name (some e)) → ¬ e.Assigns name.lexeme) :
    (frames.frame i).get? x = none := by
  cases hdefines with
  | uninitialized hi => exact hfresh i hi hlocal _ List.mem_cons_self
  | function hi => exact hfresh i hi hlocal _ List.mem_cons_self
  | @initialized _ name e _ _ _ _ he hi =>
    obtain ⟨hinv, cls, layers, hwf, hvs, hsettled, hmatches⟩ := hr
    obtain ⟨hchain, hnew⟩ := vacant_of_initializer hwf.1 hwf.2 hvs hsettled hinv hmatches
      (hassigns name e rfl) (fun i hi hne => hfresh i hi hne _ List.mem_cons_self) he
    rw [hchain] at hi
    exact hnew i hi hlocal
  | @cls _ decl _ _ _ _ hc hi =>
    rcases superclassOf_eq_ok hc with ⟨-, rfl⟩ | ⟨e, v, hsuper, he⟩
    · exact hfresh i hi hlocal _ List.mem_cons_self
    · obtain ⟨hinv, cls, layers, hwf, hvs, hsettled, hmatches⟩ := hr
      obtain ⟨name, superclass, methods, statics⟩ := decl
      cases hsuper
      obtain ⟨hchain, hnew⟩ := vacant_of_initializer hwf.1 (hwf.2.1.wellFormed e rfl)
        (List.forall_mem_append.1 hvs).1 hsettled hinv hmatches (not_assigns_of_superclass hwf.2.1)
        (fun i hi hne => hfresh i hi hne _ List.mem_cons_self) he
      rw [hchain] at hi
      exact hnew i hi hlocal
  | parameter hp =>
    rw [Frames.frame_push_next]
    exact get?_callFrame_take _ (Region.nodup_params horderly.2.2.1) hp
  | superclass | receiver =>
    rw [Frames.frame_push_next]
    rfl

end Run

namespace Session

variable {s : Session} {steps : List Step} {sink : Sink} {clock : Clock} {r : Run}
  {outer : List Run}

/-- A run that is active is that of a program, or the run around it has begun it. -/
theorem Moment.begun (h : Moment s steps (r :: outer)) : (∃ ss, r.task = .program ss) ∨
    ∃ q outer', outer = q :: outer' ∧ Moment s steps (q :: outer') ∧ q.Begins r := by
  generalize hstack : r :: outer = stack at h
  induction h with
  | now hruns h =>
    cases h with
    | start =>
      cases hstack
      exact .inl ⟨_, rfl⟩
    | begin h hbegins =>
      cases hstack
      exact .inr ⟨_, _, rfl, .now hruns h, hbegins⟩
  | later _ ih =>
    rcases ih hstack with hprogram | ⟨q, outer', houter, h, hbegins⟩
    · exact .inl hprogram
    · exact .inr ⟨q, outer', houter, .later h, hbegins⟩

/-- At each moment of a session, what is still to be declared in a frame is not in the frame. -/
theorem Moment.fresh (h : Moment (initial sink clock) steps (r :: outer)) : r.Fresh := by
  induction outer generalizing r with
  | nil =>
    rcases h.begun with ⟨ss, hprogram⟩ | ⟨q, outer', hnil, -⟩
    · rw [Run.Fresh, hprogram]
      exact trivial
    · cases hnil
  | cons q outer ih =>
    rcases h.begun with ⟨ss, hprogram⟩ | ⟨q', outer', hcons, hq, hbegins⟩
    · rw [Run.Fresh, hprogram]
      exact trivial
    · cases hcons
      obtain ⟨vs, before, hplaced, -⟩ := hq.observed.placed
      exact Run.fresh_of_begins hbegins hplaced hq.observed.orderly (ih hq)

/-- Whatever is done with a session, each definition in a local frame introduces a name that the
frame does not have, be it the name of a variable, a function or a class, a parameter, a superclass
or a receiver. The only definition that may find its name in the frame is that of a variable whose
own initializer assigns it. -/
theorem defines_new (sink : Sink) (clock : Clock) (steps : List Step) (r : Run) (outer : List Run)
    (frames : Frames) (i : FrameId) (x : String)
    (h : (initial sink clock).Moment steps (r :: outer)) (hdefines : r.Defines frames i x)
    (hlocal : i ≠ globalFrame)
    (hassigns : ∀ name e, r.task = .execute (.varDecl name (some e)) → ¬ e.Assigns name.lexeme) :
    (frames.frame i).get? x = none := by
  obtain ⟨vs, before, hplaced, -⟩ := h.observed.placed
  exact h.fresh.of_defines hplaced h.observed.orderly hdefines hlocal hassigns

/-- The initializer of a variable calls a function that is declared in the same frame. -/
theorem defines_new_called :
    let s := initial {} {}
    let steps := [Step.run 5 "{ fun f() { return true; } var a = f(); print a; }"]
    ∃ r outer frames, s.Moment steps (r :: outer) ∧ r.Defines frames 1 "a" ∧
      (frames.frame 1).get? "f" = some (.function 0) ∧ (frames.frame 1).get? "a" = none := by
  intro s steps
  let f : FunctionDecl := ⟨.named "f", [],
    [.returnWith ⟨.symbol .kwReturn, "return", 1⟩ (some (.literal (.bool true)))]⟩
  let value : Expr := .call (.var 0 (.named "f")) .paren []
  let body : List Stmt :=
    [.funDecl f, .varDecl (.named "a") (some value), .print (.var 1 (.named "a"))]
  let m₀ := (Machine.initial {} {}).noteAll [⟨0, "f", some 0⟩, ⟨1, "a", some 0⟩]
  have hstart : s.Moment steps [⟨5, .program [.block body], m₀⟩] :=
    .first (by decide +kernel) (by decide +kernel) (by decide +kernel)
  let machine (frames : List Frame) (functions : List Closure) : Machine :=
    m₀.holding (Machine.initialGlobals :: frames) functions [] [] [1, 0] 0
  let frame : Frame := ⟨[("f", .function 0)]⟩
  have hfunction : Lox.execute 4 (.funDecl f) (machine [∅] []) =
      .ok .normal (machine [frame] [⟨f, [1, 0], false⟩]) := rfl
  have hvalue : Lox.evaluate 3 value (machine [frame] [⟨f, [1, 0], false⟩]) =
      .ok (.bool true) (machine [frame, ∅] [⟨f, [1, 0], false⟩]) := rfl
  have hbody := ((hstart.begin .topLevel).begin .block).begin .body
  have hdecl := (hbody.begin (.laterStatements hfunction)).begin .statement
  have hdefines : Run.Defines ⟨4, .execute (.varDecl (.named "a") (some value)), _⟩ _ 1 "a" :=
    .initialized hvalue rfl
  refine ⟨_, _, _, hdecl, hdefines, rfl, ?_⟩
  refine defines_new {} {} steps _ _ _ 1 "a" hdecl hdefines (by decide) ?_
  rintro _ _ ⟨⟩ ⟨v, hv, huse, -⟩
  cases List.mem_singleton.1 hv
  cases huse

/-- The initializer of a variable assigns the variable, so the frame has the name when the
declaration defines it. -/
theorem defines_assigned_again :
    let s := initial {} {}
    let steps := [Step.run 5 "{ var a = (a = true); print a; }"]
    ∃ r outer frames, s.Moment steps (r :: outer) ∧ r.Defines frames 1 "a" ∧
      (frames.frame 1).get? "a" = some (.bool true) := by
  intro s steps
  let value : Expr := .grouping (.assign 1 (.named "a") (.literal (.bool true)))
  let body : List Stmt := [.varDecl (.named "a") (some value), .print (.var 2 (.named "a"))]
  let m₀ := (Machine.initial {} {}).noteAll [⟨1, "a", some 0⟩, ⟨2, "a", some 0⟩]
  have hstart : s.Moment steps [⟨5, .program [.block body], m₀⟩] :=
    .first (by decide +kernel) (by decide +kernel) (by decide +kernel)
  let machine (frame : Frame) : Machine :=
    m₀.holding [Machine.initialGlobals, frame] [] [] [] [1, 0] 0
  have hvalue : Lox.evaluate 3 value (machine ∅) =
      .ok (.bool true) (machine ⟨[("a", .bool true)]⟩) := rfl
  have hdecl := (((hstart.begin .topLevel).begin .block).begin .body).begin .statement
  have hdefines : Run.Defines ⟨4, .execute (.varDecl (.named "a") (some value)), _⟩ _ 1 "a" :=
    .initialized hvalue rfl
  exact ⟨_, _, _, hdecl, hdefines, rfl⟩

end Session

end Lox
