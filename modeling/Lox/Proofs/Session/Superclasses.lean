import Lox.Proofs.Session.Binding

/-!
# The superclass of a method

The methods of a class with a superclass see a frame that holds the superclass, and this frame is
made when the declaration of the class is executed. So wherever a method of the class runs, be it
for an instance of a class that inherits it, `super` starts at the superclass that the class was
declared with.
-/

namespace Lox

open Exec

variable {id : FrameId} {name : String} {decl : ClassDecl}

/-! ## Declarations -/

/-- Only functions are added for static methods. -/
theorem exists_staticTable (chain : Chain) (ds : List FunctionDecl) (fields : Table Value)
    (m : Machine) :
    ∃ fields' functions, staticTable chain ds fields m =
      .ok fields' { m with heap := { m.heap with functions := functions } } := by
  induction ds generalizing fields m with
  | nil => exact ⟨fields, m.heap.functions, rfl⟩
  | cons d ds ih =>
    rw [staticTable, withHeap_bind_apply]
    exact ih _ _

/-- A name is found in the innermost frame that has it. -/
theorem Frames.get_cons_of_get? {frames : Frames} {outer : Chain} {v : Value}
    (h : (frames.frame id).get? name = some v) : frames.get name (id :: outer) = .ok v := by
  rw [Frames.get, h]

theorem assign_of_get? {name : Token} {w : Value} {m : Machine} (outer : Chain) (v : Value)
    (h : (m.heap.frames.frame id).get? name.lexeme = some w) :
    assign (id :: outer) name v m = .ok ()
      { m with heap := { m.heap with frames := m.heap.frames.define id name.lexeme v } } := by
  have hholder : m.heap.frames.holder name.lexeme (id :: outer) = .ok id := by
    rw [Frames.holder, if_pos (by simp [Table.contains, h])]
  rw [assign, get_bind_apply, hholder]
  rfl

/-- A superclass clause leaves the machine that its expression leaves. -/
theorem after_of_superclassOf {eval : Expr → Exec Value} {name : Token} {e : Expr} {c : ClassId}
    {m m' : Machine} (h : superclassOf eval name (some e) m = .ok (some c) m') :
    (eval e).after m = m' := by
  rw [superclassOf] at h
  simp only [Bind.bind, EStateM.bind] at h
  rw [Exec.after]
  cases he : eval e m with
  | error halt m'' =>
    rw [he] at h
    cases h
  | ok v m'' =>
    rw [he] at h
    cases v with
    | class_ c' =>
      cases h
      rfl
    | _ => cases h

/-- What a declaration of a class with a superclass makes. The name is that of a new class, which
inherits from the superclass. Its methods see one more frame, and this holds the superclass. -/
theorem declareClass_of_superclass {eval : Expr → Exec Value} {c : ClassId} {m m₁ : Machine}
    {outer : Chain} (hchain : m₁.chain = id :: outer) (hid : id < m₁.heap.frames.size)
    (h : superclassOf eval decl.name decl.superclass m = .ok (some c) m₁) :
    ∃ m', declareClass eval decl m = .ok () m' ∧ m'.chain = m₁.chain ∧
      m'.heap.frames.get decl.name.lexeme m'.chain = .ok (.class_ m₁.heap.classes.size) ∧
      m₁.heap.classes.size < m'.heap.classes.size ∧
      (m'.heap.cls m₁.heap.classes.size).methods =
        methodTable (m₁.heap.frames.next :: m₁.chain) decl.methods ∧
      (m'.heap.cls m₁.heap.classes.size).ancestors = m₁.heap.lineage c ∧
      (m'.heap.frames.frame m₁.heap.frames.next).get? "super" = some (.class_ c) := by
  let frames := m₁.heap.frames.define id decl.name.lexeme .nil
  let m₂ : Machine := { m₁ with heap := { m₁.heap with frames := frames } }
  let m₃ : Machine :=
    { m₂ with heap := (m₂.heap.newFrame ((∅ : Frame).insert "super" (.class_ c))).2 }
  have hdefine : define decl.name.lexeme .nil m₁ = .ok () m₂ := by
    rw [define, get_bind_apply, hchain]
    rfl
  have hnext : m₂.heap.frames.next = m₁.heap.frames.next := Frames.size_define _ _ _ _
  have hmethodChain : methodChain (some c) m₂ = .ok (m₁.heap.frames.next :: m₁.chain) m₃ := by
    rw [← hnext]
    rfl
  obtain ⟨fields, functions, hstatic⟩ :=
    exists_staticTable (m₁.heap.frames.next :: m₁.chain) decl.statics ∅ m₃
  let m₄ : Machine := { m₃ with heap := { m₃.heap with functions := functions } }
  let made : ClassObject :=
    { name := decl.name.lexeme
      ancestors := m₄.heap.lineage c
      methods := methodTable (m₁.heap.frames.next :: m₁.chain) decl.methods
      fields := fields }
  let m₅ : Machine := { m₄ with heap := (m₄.heap.newClass made).2 }
  have hid₂ : id < m₂.heap.frames.size := by
    rw [Frames.size_define]
    exact hid
  have hnil : (m₅.heap.frames.frame id).get? decl.name.lexeme = some .nil := by
    have hpush : m₅.heap.frames.frame id = m₂.heap.frames.frame id :=
      Frames.frame_push_of_lt _ hid₂
    rw [hpush, Frames.get?_define _ _ _ hid, if_pos ⟨rfl, rfl⟩]
  let m₆ : Machine := { m₅ with heap := { m₅.heap with
    frames := m₅.heap.frames.define id decl.name.lexeme (.class_ m₁.heap.classes.size) } }
  have hid₅ : id < m₅.heap.frames.size := Nat.lt_of_lt_of_le hid₂ (Frames.extends_push _ _).size
  have hcls : m₆.heap.cls m₁.heap.classes.size = made :=
    (Heap.cls_newClass m₄.heap made _).trans (if_pos rfl)
  refine ⟨m₆, ?_, rfl, ?_, ?_, ?_, ?_, ?_⟩
  · rw [declareClass, bind_of_ok h, bind_of_ok hdefine, bind_of_ok hmethodChain, bind_of_ok hstatic,
      withHeap_bind_apply, get_bind_apply]
    change assign m₁.chain decl.name (.class_ m₁.heap.classes.size) m₅ = _
    rw [hchain]
    exact assign_of_get? outer _ hnil
  · change m₆.heap.frames.get decl.name.lexeme m₁.chain = _
    rw [hchain]
    refine Frames.get_cons_of_get? ?_
    rw [Frames.get?_define _ _ _ hid₅, if_pos ⟨rfl, rfl⟩]
  · simp [m₆, m₅, m₄, m₃, m₂, Heap.newClass, Heap.newFrame]
  · rw [hcls]
  · rw [hcls]
    rfl
  · have hne : m₁.heap.frames.next ≠ id := Nat.ne_of_gt hid
    have hframe : m₆.heap.frames.frame m₁.heap.frames.next =
        (∅ : Frame).insert "super" (.class_ c) := by
      rw [Frames.frame_define_of_ne _ _ hne, ← hnext]
      exact Frames.frame_push_next _ _
    rw [hframe, Table.get?_insert_self]

namespace Session

variable {sink : Sink} {clock : Clock} {steps : List Step} {r : Run} {outer outer' : List Run}
  {h : Heap} {c method : Closure} {i : InstanceId} {fuel : Nat} {m m₁ : Machine} {S : ClassId}

/-! ## Moments -/

/-- Behind a superclass clause the chain is the same. The heap has grown, and it grows to the one
that the session ends with. -/
theorem Moment.grows_superclassOf
    (hdecl : Moment (initial sink clock) steps (⟨fuel + 1, .execute (.classDecl decl), m⟩ :: outer))
    (hS : superclassOf (Lox.evaluate fuel) decl.name decl.superclass m = .ok (some S) m₁) :
    m₁.chain = m.chain ∧ m.heap.Grows m₁.heap ∧
      m₁.heap.Grows ((initial sink clock).after steps).machine.heap := by
  cases hclause : decl.superclass with
  | none =>
    rw [hclause] at hS
    cases hS
  | some e =>
    rw [hclause] at hS
    -- The expression of the clause is a run of its own, which leaves the machine behind the clause.
    have he := (hdecl.begin (.expression (Option.mem_toList.2 hclause))).observed
    have hafter : Run.after ⟨fuel, .evaluate e, m⟩ = m₁ :=
      (Run.after_eq _).trans (after_of_superclassOf hS)
    have hchain := (Task.restores_exec fuel (.evaluate e) m).chain
    have hgrows := he.orderly.above_after.1
    have hend := he.grows_after
    rw [hafter] at hgrows hend
    exact ⟨hafter ▸ hchain, hgrows, hend⟩

/-- What a declaration of a class with a superclass makes, at any moment of a session. -/
theorem Moment.exists_class
    (hdecl : Moment (initial sink clock) steps (⟨fuel + 1, .execute (.classDecl decl), m⟩ :: outer))
    (hS : superclassOf (Lox.evaluate fuel) decl.name decl.superclass m = .ok (some S) m₁) :
    ∃ m', Lox.execute (fuel + 1) (.classDecl decl) m = .ok .normal m' ∧
      m'.heap.Grows ((initial sink clock).after steps).machine.heap ∧
      m'.heap.frames.get decl.name.lexeme m'.chain = .ok (.class_ m₁.heap.classes.size) ∧
      m₁.heap.classes.size < m'.heap.classes.size ∧
      (m'.heap.cls m₁.heap.classes.size).methods =
        methodTable (m₁.heap.frames.next :: m₁.chain) decl.methods ∧
      (m'.heap.cls m₁.heap.classes.size).ancestors = m₁.heap.lineage S ∧
      (m'.heap.frames.frame m₁.heap.frames.next).get? "super" = some (.class_ S) := by
  obtain ⟨vs, before, ⟨-, cls, layers, -, -, -, hmatches⟩, -⟩ := hdecl.observed.placed
  obtain ⟨id, rest, hchain, hid⟩ := hmatches.exists_head
  obtain ⟨hsame, hgrows, -⟩ := hdecl.grows_superclassOf hS
  obtain ⟨m', hrun, -, hmade⟩ := declareClass_of_superclass (hsame.trans hchain)
    (Nat.lt_of_lt_of_le hid hgrows.frames.size) hS
  have hexecute : Lox.execute (fuel + 1) (.classDecl decl) m = .ok .normal m' := bind_of_ok hrun
  have hbehind := hdecl.observed.grows_after
  rw [Run.after_eq] at hbehind
  simp only [Task.leaves, Exec.after, hexecute] at hbehind
  exact ⟨m', hexecute, hbehind, hmade⟩

/-- A method of a class that was declared with a superclass sees the frame that holds it. -/
theorem Moment.chain_of_method
    (hdecl : Moment (initial sink clock) steps (⟨fuel + 1, .execute (.classDecl decl), m⟩ :: outer))
    (hS : superclassOf (Lox.evaluate fuel) decl.name decl.superclass m = .ok (some S) m₁)
    (hr : Moment (initial sink clock) steps (r :: outer')) (hbinds : r.Binds h method i)
    (hmethod : (h.cls m₁.heap.classes.size).methods.get? name = some method) :
    method.chain = m₁.heap.frames.next :: m₁.chain := by
  obtain ⟨m', -, hgrows, -, hlt, hmethods, -⟩ := hdecl.exists_class hS
  rw [← hr.methods_of_binds hbinds hmethod, hgrows.methods _ hlt, hmethods] at hmethod
  exact (get?_methodTable hmethod).1

/-- In code that belongs to a bound method of a class that was declared with a superclass, `super`
starts there and is about the receiver. -/
theorem Moment.evaluate_superRef {id : NodeId} {keyword property : Token} {fuel' : Nat}
    {m' : Machine} {around : List Run}
    (hdecl : Moment (initial sink clock) steps (⟨fuel + 1, .execute (.classDecl decl), m⟩ :: outer))
    (hS : superclassOf (Lox.evaluate fuel) decl.name decl.superclass m = .ok (some S) m₁)
    (hr : Moment (initial sink clock) steps (r :: outer')) (hbinds : r.Binds h method i)
    (hmethod : (h.cls m₁.heap.classes.size).methods.get? name = some method)
    (he : Moment (initial sink clock) steps
      (⟨fuel' + 1, .evaluate (.superRef id keyword property), m'⟩ :: around))
    (hrunning : Run.running? around = some c)
    (hc : Belongs (initial sink clock) steps (h.bindReceiver method (.instance_ i)).1 c) :
    Lox.evaluate (fuel' + 1) (.superRef id keyword property) m' = getMember S i property m' := by
  have hreceives := hr.receives hbinds
  have hkeyword : keyword.lexeme = "super" := he.observed.orderly.2
  obtain ⟨d, hfound, hd⟩ := (he.exists_foundAt hrunning hc hreceives
    (fun _ _ => List.mem_singleton_self _)).2 rfl hkeyword
  obtain ⟨m₂, -, hgrows, -, -, -, -, hsuper⟩ := hdecl.exists_class hS
  have hbehind : m'.chain[d + 1]? = some m₁.heap.frames.next := by
    rw [← List.head?_drop, hfound.behind, hdecl.chain_of_method hS hr hbinds hmethod]
    rfl
  have hthis := he.observed.grows.provided_before (.inl rfl)
    (hfound.bounded _ (List.mem_of_getElem? hfound.receiver)) hreceives.this
  have hclass := he.observed.grows.provided_before (.inr rfl)
    (hfound.bounded _ (List.mem_of_getElem? hbehind)) (hgrows.provided (.inr rfl) hsuper)
  refine superMember_of_getAt hd ?_ (Frames.getAt_of_get? hfound.receiver hthis)
  rw [hkeyword]
  exact Frames.getAt_of_get? hbehind hclass

/-- What `super` finds. Let a declaration of a class be executed whose superclass clause gives the
class `S`. Then the name of the class is that of a new class, which inherits from `S` and from the
classes that `S` inherits from. Let a method of this class be bound to an instance, whichever class
the instance has, and let `super` be evaluated in the code of the bound method, or of a function
that is declared there. If the instance has a field of the name, then the field is the result.
Otherwise it is the first method of the name from `S` on, bound to the instance, and if there is
none then the property is undefined. Classes that there were before the declaration have the methods
and the superclasses that they had then. -/
theorem super_starts_at_declared (sink : Sink) (clock : Clock) (steps : List Step) (fuel : Nat)
    (decl : ClassDecl) (m m₁ : Machine) (outer : List Run) (S : ClassId)
    (hdecl : (initial sink clock).Moment steps (⟨fuel + 1, .execute (.classDecl decl), m⟩ :: outer))
    (hS : superclassOf (Lox.evaluate fuel) decl.name decl.superclass m = .ok (some S) m₁) :
    let s := initial sink clock
    let k := m₁.heap.classes.size
    (∃ m', Lox.execute (fuel + 1) (.classDecl decl) m = .ok .normal m' ∧
      m'.heap.frames.get decl.name.lexeme m'.chain = .ok (.class_ k) ∧
      (m'.heap.cls k).ancestors = m₁.heap.lineage S) ∧
    ∀ r outer' h method i name, s.Moment steps (r :: outer') → r.Binds h method i →
      (h.cls k).methods.get? name = some method →
        ∀ fuel' id keyword property m' around c,
          s.Moment steps (⟨fuel' + 1, .evaluate (.superRef id keyword property), m'⟩ :: around) →
          Run.running? around = some c →
          s.Belongs steps (h.bindReceiver method (.instance_ i)).1 c →
            let e : Expr := .superRef id keyword property
            let field := (m'.heap.inst i).fields.get? property.lexeme
            let found := m'.heap.findMethod? (m'.heap.lineage S) property.lexeme
            (∀ v, field = some v → Lox.evaluate (fuel' + 1) e m' = .ok v m') ∧
            (∀ target, field = none → found = some target →
              Lox.evaluate (fuel' + 1) e m' = .ok (.function m'.heap.functions.size)
                { m' with heap := (m'.heap.bindMethod target (.instance_ i)).2 }) ∧
            (field = none → found = none → Lox.evaluate (fuel' + 1) e m' =
              .error (.fault property.line (.undefinedProperty property.lexeme)) m') ∧
            ∀ d < m₁.heap.classes.size, d < m'.heap.classes.size →
              (m'.heap.cls d).methods = (m₁.heap.cls d).methods ∧
                (m'.heap.cls d).ancestors = (m₁.heap.cls d).ancestors := by
  intro s k
  obtain ⟨m₂, hrun, hgrows, hname, -, -, hancestors, -⟩ := hdecl.exists_class hS
  refine ⟨⟨m₂, hrun, hname, hancestors⟩, ?_⟩
  intro r outer' h method i name hr hbinds hmethod fuel' id keyword property m' around c he hrunning
    hc e field found
  have heval := hdecl.evaluate_superRef hS hr hbinds hmethod he hrunning hc
  refine ⟨fun v hv => ?_, fun target hnone htarget => ?_, fun hnone hmissing => ?_, ?_⟩
  · exact heval.trans (getMember_of_field hv)
  · exact heval.trans (getMember_of_method ((Heap.member?_of_no_field hnone).trans
      (congrArg (Option.map Member.method) htarget)))
  · exact heval.trans (getMember_of_none ((Heap.member?_of_no_field hnone).trans
      (congrArg (Option.map Member.method) hmissing)))
  · intro d hd hd'
    obtain ⟨-, -, hbefore⟩ := hdecl.grows_superclassOf hS
    have hnow := he.observed.grows
    rw [← hbefore.methods d hd, ← hbefore.ancestors d hd, hnow.methods d hd', hnow.ancestors d hd']
    exact ⟨rfl, rfl⟩

/-- A method that is inherited by a class which overrides what `super` finds, after the name of the
superclass was given another value. -/
theorem super_starts_at_declared_overridden :
    let s := initial {} {}
    let source := "class A{m(){}} class B<A{n(){super.m;}} class C<B{m(){}} A=nil; C().n();"
    let steps := [Step.run 6 source]
    ∃ fuel id keyword property m around target, s.Moment steps
        (⟨fuel + 1, .evaluate (.superRef id keyword property), m⟩ :: around) ∧
      m.heap.frames.get "A" globalChain = .ok .nil ∧ (m.heap.inst 0).cls = 2 ∧
      ((m.heap.cls 2).methods.get? property.lexeme).isSome ∧
      (m.heap.cls 0).methods.get? property.lexeme = some target ∧
      Lox.evaluate (fuel + 1) (.superRef id keyword property) m = .ok (.function 1)
        { m with heap := (m.heap.bindMethod target (.instance_ 0)).2 } := by
  intro s source steps
  let body : FunctionDecl := ⟨.named "m", [], []⟩
  let n : FunctionDecl :=
    ⟨.named "n", [], [.expression (.superRef 1 ⟨.symbol .kwSuper, "super", 1⟩ (.named "m"))]⟩
  let declA : ClassDecl := ⟨.named "A", none, [body], []⟩
  let declB : ClassDecl := ⟨.named "B", some (.var 0 (.named "A")), [n], []⟩
  let declC : ClassDecl := ⟨.named "C", some (.var 2 (.named "B")), [body], []⟩
  let forget : Stmt := .expression (.assign 4 (.named "A") (.literal .nil))
  let made : Expr := .call (.var 5 (.named "C")) .paren []
  let program : List Stmt := [.classDecl declA, .classDecl declB, .classDecl declC, forget,
    .expression (.call (.get made (.named "n")) .paren [])]
  let m₀ := (Machine.initial {} {}).noteAll [⟨0, "A", none⟩, ⟨1, "super", some 2⟩, ⟨2, "B", none⟩,
    ⟨4, "A", none⟩, ⟨5, "C", none⟩]
  have hstart : s.Moment steps [⟨6, .program program, m₀⟩] :=
    .first (by decide +kernel) (by decide +kernel) (by decide +kernel)
  -- The machine behind each statement, with the classes that there are then.
  let global₁ := Machine.initialGlobals.insert "A" (.class_ 0)
  let global₂ := global₁.insert "B" (.class_ 1)
  let global₃ := global₂.insert "C" (.class_ 2)
  let global₄ := global₃.insert "A" .nil
  let super₁ : Frame := ⟨[("super", .class_ 0)]⟩
  let super₂ : Frame := ⟨[("super", .class_ 1)]⟩
  let receiver : Frame := ⟨[("this", .instance_ 0)]⟩
  let a : ClassObject := ⟨"A", [], ⟨[("m", ⟨body, [0], false⟩)]⟩, ∅⟩
  let b : ClassObject := ⟨"B", [0], ⟨[("n", ⟨n, [1, 0], false⟩)]⟩, ∅⟩
  let c : ClassObject := ⟨"C", [1, 0], ⟨[("m", ⟨body, [2, 0], false⟩)]⟩, ∅⟩
  let m₁ := m₀.holding [global₁] [] [a] [] [0] 0
  let m₂ := m₀.holding [global₂, super₁] [] [a, b] [] [0] 0
  let m₃ := m₀.holding [global₃, super₁, super₂] [] [a, b, c] [] [0] 0
  let m₄ := m₀.holding [global₄, super₁, super₂] [] [a, b, c] [] [0] 0
  let m₅ := m₀.holding [global₄, super₁, super₂] [] [a, b, c] [⟨2, ∅⟩] [0] 0
  let m₆ := m₀.holding [global₄, super₁, super₂, receiver] [⟨n, [3, 1, 0], false⟩] [a, b, c]
    [⟨2, ∅⟩] [0] 0
  have hA : Lox.execute 6 (.classDecl declA) m₀ = .ok .normal m₁ := rfl
  have hB : Lox.execute 6 (.classDecl declB) m₁ = .ok .normal m₂ := rfl
  have hC : Lox.execute 6 (.classDecl declC) m₂ = .ok .normal m₃ := rfl
  have hforget : Lox.execute 6 forget m₃ = .ok .normal m₄ := rfl
  have hclause : superclassOf (Lox.evaluate 5) declB.name declB.superclass m₁ = .ok (some 0) m₁ :=
    rfl
  have hmade : Lox.evaluate 3 made m₄ = .ok (.instance_ 0) m₅ := rfl
  have hread : Lox.evaluate 4 (.get made (.named "n")) m₄ = .ok (.function 0) m₆ := rfl
  have hlater := hstart.begin (.laterProgram hA)
  have hdecl := hlater.begin .topLevel
  have hlast := (((hlater.begin (.laterProgram hB)).begin (.laterProgram hC)).begin
    (.laterProgram hforget)).begin .topLevel
  have hcall := hlast.begin (.expression (List.mem_singleton_self _))
  have hproperty : s.Moment steps (⟨4, .evaluate (.get made (.named "n")), m₄⟩ :: _) :=
    hcall.begin (.first rfl)
  have hbinds : Run.Binds ⟨4, .evaluate (.get made (.named "n")), m₄⟩ m₅.heap ⟨n, [1, 0], false⟩ 0 :=
    .property hmade rfl
  have hbody := ((((hcall.begin (.call hread rfl)).begin (.invoke rfl rfl (by decide))).begin
    .closure).begin .closureBody).begin .body
  have hsuper := (hbody.begin .statement).begin (.expression (List.mem_singleton_self _))
  have hresult := ((super_starts_at_declared {} {} steps 5 declB m₁ m₁ _ 0 hdecl hclause).2
    _ _ _ _ _ "n" hproperty hbinds rfl _ _ _ _ _ _ _ hsuper rfl .self).2.1 ⟨body, [0], false⟩
      rfl rfl
  exact ⟨_, _, _, _, _, _, _, hsuper, rfl, rfl, rfl, rfl, hresult⟩

end Session

end Lox
