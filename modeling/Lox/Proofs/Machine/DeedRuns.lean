import Lox.Proofs.Machine.Steps

/-!
# Programs change a heap in steps

Whatever a program does on a planted machine, it changes the heap in steps, and the deeds of the
steps are those that are told of the program. The program may be any list of statements: nothing is
asked of the distances that are recorded for its nodes, and it may end with a fault.
-/

namespace Lox

variable {v : Value} {name : Token} {id : NodeId} {arguments : List Value}

/-- What an end of a statement gives is there. -/
inductive Heap.HasEnd (h : Heap) : Completion → Prop
  | normal : HasEnd h .normal
  | returned {v : Value} (hv : h.Has v) : HasEnd h (.returned v)

section

open Exec

variable {m : Machine} {S : Seen}

/-! ## Variables and members -/

theorem does_define {name : String} (hv : m.heap.Has v) :
    Does S (fun _ _ _ => True) m (define name v) [] := by
  refine Does.get_bind ?_
  cases m.chain with
  | nil => exact Does.pure trivial
  | cons id outer => exact Does.defineIn hv

theorem does_assign {chain : Chain} (hv : m.heap.Has v) :
    Does S (fun _ _ _ => True) m (assign chain name v) [] :=
  Does.get_bind (Does.bind_silent (R := fun _ _ _ => True) (Does.ofExcept fun _ _ => trivial)
    fun _ _ hwithin _ _ => Does.defineIn (hv.mono hwithin))

theorem does_lookUp : Does S (fun _ => Heap.Has) m (lookUp id name) [] := by
  refine .of_planted fun hm => Does.get_bind ?_
  cases m.locals[id]? with
  | none => exact Does.ofExcept fun _ hv => hm.heap.closed.get hv
  | some distance => exact Does.ofExcept fun _ hv => hm.heap.closed.getAt hv

theorem does_overwrite (hv : m.heap.Has v) :
    Does S (fun _ _ _ => True) m (overwrite id name v) [] := by
  refine Does.get_bind ?_
  cases m.locals[id]? with
  | none => exact does_assign hv
  | some distance =>
    exact Does.get_bind (Does.bind_silent (R := fun _ _ _ => True) (Does.ofExcept fun _ _ => trivial)
      fun _ _ hwithin _ _ => Does.defineIn (hv.mono hwithin))

theorem does_getMember {start : ClassId} {i : InstanceId} (hi : i < m.heap.instances.size) :
    Does S (fun _ => Heap.Has) m (getMember start i name) [] := by
  refine .of_planted fun hm => Does.get_bind ?_
  cases hmember : m.heap.member? start i name.lexeme with
  | none => exact Does.fail
  | some member =>
    cases member with
    | field v =>
      have hv := Table.mem_values_of_get? (Heap.get?_of_member? hmember)
      exact Does.pure (hm.heap.closed.fields i v hv)
    | method c =>
      obtain ⟨d, hd⟩ := Heap.exists_of_member? hmember
      have hchain := hm.heap.methods d c (Table.mem_values_of_get? hd)
      have hreceiver : m.heap.Has (.instance_ i) := hi
      have hframe := (Heap.Step.frame hchain (hreceiver.singleton "this")).single
      refine Does.map (R := fun _ h f => f < h.functions.size)
        (Does.withHeap (hframe.step (.function (.inr rfl))) ?_) fun _ _ _ hf => hf
      simp [Heap.bindMethod, Heap.bindReceiver, Heap.newFunction, Heap.newFrame]

theorem does_getProperty {object : Value} (hobject : m.heap.Has object) :
    Does S (fun _ => Heap.Has) m (getProperty object name)
      (getPropertyTrace .objects object name m) := by
  rw [getPropertyTrace_objects]
  cases object with
  | instance_ i =>
    have howner : m.heap.Has (Owner.instance_ i).value := hobject
    exact Does.read howner (Does.get_bind (does_getMember hobject))
  | class_ c =>
    have howner : m.heap.Has (Owner.class_ c).value := hobject
    refine Does.read howner (.of_planted fun hm => Does.get_bind ?_)
    simp only
    cases hv : m.heap.classField? c name.lexeme with
    | none => exact Does.fail
    | some v => exact Does.pure (hm.heap.closed.classField? hv)
  | _ => exact Does.fail

theorem does_setProperty {object : Value} (hobject : m.heap.Has object) {value : Exec Value}
    {deeds : Deeds} (hvalue : Does S (fun _ => Heap.Has) m value (deeds m)) :
    Does S (fun _ => Heap.Has) m (setProperty object name value)
      (setPropertyTrace .objects object name value deeds m) := by
  cases object with
  | instance_ i =>
    refine Does.bind hvalue fun v m' hwithin _ hv => ?_
    have howner : m'.heap.Has (Owner.instance_ i).value := hobject.mono hwithin
    exact Does.bind_silent (Does.modifyHeap (Heap.Step.wrote rfl howner hv).single)
      fun _ _ hwithin' _ _ => Does.pure (hv.mono hwithin')
  | class_ c =>
    refine Does.bind hvalue fun v m' hwithin _ hv => ?_
    have howner : m'.heap.Has (Owner.class_ c).value := hobject.mono hwithin
    exact Does.bind_silent (Does.modifyHeap (Heap.Step.wrote rfl howner hv).single)
      fun _ _ hwithin' _ _ => Does.pure (hv.mono hwithin')
  | _ => exact Does.fail

theorem does_superMember {keyword method : Token} :
    Does S (fun _ => Heap.Has) m (superMember id keyword method)
      (superMemberTrace .objects id keyword method m) := by
  rw [superMemberTrace_objects]
  refine .of_planted fun hm => Does.get_bind ?_
  match m.locals[id]? with
  | none | some 0 => exact Does.fail
  | some (distance + 1) =>
    refine Does.bind_silent (R := fun _ _ _ => True) (Does.ofExcept fun _ _ => trivial)
      fun superclass m₁ hwithin _ _ => ?_
    refine Does.bind_silent (R := fun _ => Heap.Has) (Does.ofExcept fun v hv => ?_)
      fun receiver m₂ _ _ hreceiver => ?_
    · exact (hm.heap.closed.getAt hv).mono hwithin
    · cases superclass with
      | class_ c =>
        cases receiver with
        | instance_ i => exact does_getMember hreceiver
        | _ => exact Does.fail
      | _ => exact Does.fail

/-! ## Statements and calls -/

/-- Evaluating an expression changes a heap in steps with the given deeds. -/
def DoesExprs (eval : Expr → Exec Value) (deeds : Expr → Deeds) : Prop :=
  ∀ {S : Seen} e m, Does S (fun _ => Heap.Has) m (eval e) (deeds e m)

def DoesStmts (exec : Stmt → Exec Completion) (deeds : Stmt → Deeds) : Prop :=
  ∀ {S : Seen} s m, Does S (fun _ => Heap.HasEnd) m (exec s) (deeds s m)

def Heap.HasAll (h : Heap) (vs : List Value) : Prop := ∀ v ∈ vs, h.Has v

variable {eval : Expr → Exec Value} {evalDeeds : Expr → Deeds} {exec : Stmt → Exec Completion}
  {execDeeds : Stmt → Deeds}

theorem DoesExprs.evaluateAll (heval : DoesExprs eval evalDeeds) (es : List Expr) :
    Does S (fun _ => Heap.HasAll) m (evaluateAll eval es) (evaluateAllTrace eval evalDeeds es m) := by
  induction es generalizing m S with
  | nil => exact Does.pure nofun
  | cons e es ih =>
    refine Does.bind (heval e m) fun v m' _ _ hv => ?_
    refine Does.bind_silent ih fun vs m'' hwithin _ hvs => Does.pure ?_
    exact List.forall_mem_cons.2 ⟨hv.mono hwithin, hvs⟩

theorem DoesStmts.executeAll (hexec : DoesStmts exec execDeeds) (ss : List Stmt) :
    Does S (fun _ => Heap.HasEnd) m (executeAll exec ss) (executeAllTrace exec execDeeds ss m) := by
  induction ss generalizing m S with
  | nil => exact Does.pure .normal
  | cons s ss ih =>
    refine Does.bind (hexec s m) fun completion m' _ _ hcompletion => ?_
    cases hcompletion with
    | normal => exact ih
    | returned hv => exact Does.pure (.returned hv)

theorem DoesStmts.executeInFrame (hexec : DoesStmts exec execDeeds) {frame : Frame}
    {chain : Chain} (hframe : ∀ v ∈ frame.values, m.heap.Has v) (hchain : S chain) (region : Region)
    (body : List Stmt) :
    Does S (fun _ => Heap.HasEnd) m (executeInFrame exec frame chain body)
      (executeInFrameTrace .objects exec execDeeds region frame chain body m) := by
  exact Does.bind (R := fun S' _ id => S' (id :: chain))
    (Does.withHeap (Heap.Step.frame hchain hframe).single (.inr rfl))
    fun id m' _ _ hid => Does.inChain hid (hexec.executeAll body)

theorem DoesStmts.runClosure (hexec : DoesStmts exec execDeeds) {c : Closure}
    (hc : S c.chain) (harguments : m.heap.HasAll arguments) :
    Does S (fun _ => Heap.Has) m (Lox.runClosure exec c arguments)
      (runClosureTrace .objects exec execDeeds c arguments m) := by
  refine Does.bind_silent (hexec.executeInFrame
    (fun v hv => harguments v (mem_of_mem_callFrame hv)) hc (.call c.decl) c.decl.body)
    fun completion m' _ _ hcompletion => ?_
  cases c.isInitializer with
  | true =>
    exact .of_planted fun hm' => Does.get_bind (Does.ofExcept fun v hv => hm'.heap.closed.getAt hv)
  | false =>
    cases hcompletion with
    | normal => exact Does.pure trivial
    | returned hv => exact Does.pure hv

/-- An instance is made before its initializer runs. -/
theorem DoesStmts.construct (hexec : DoesStmts exec execDeeds) {c : ClassId}
    (hc : c < m.heap.classes.size) (harguments : m.heap.HasAll arguments) :
    Does S (fun _ => Heap.Has) m (Lox.construct exec c arguments)
      (constructTrace .objects exec execDeeds c arguments m) := by
  refine Does.bind (R := fun _ h i => h.Has (.instance_ i))
    (Does.withHeap (Heap.Step.made hc).single ?_) fun i m₁ hwithin₁ _ hi => ?_
  · simp [Heap.newInstance, Heap.Has]
  · refine .of_planted fun hm₁ => Does.get_bind ?_
    cases hinit : m₁.heap.initializer? c with
    | none => exact Does.pure hi
    | some init =>
      have hchain := hm₁.heap.findMethod? hinit
      refine Does.bind (R := fun S' _ k => S' k.chain)
        (Does.withHeap (Heap.Step.frame hchain (hi.singleton "this")).single (.inr rfl))
        fun k m₂ hwithin₂ _ hk => ?_
      · refine Does.bind_silent (hexec.runClosure hk fun v hv => ?_)
          fun _ m₃ hwithin₃ _ _ => Does.pure ?_
        · exact (harguments v hv).mono (hwithin₁.trans hwithin₂)
        · exact hi.mono (hwithin₂.trans hwithin₃)

/-- What a call calls is there. -/
def Callable.IsIn (S : Seen) (h : Heap) : Callable → Prop
  | .closure c => S c.chain
  | .native _ => True
  | .constructor c => c < h.classes.size

theorem DoesStmts.invoke (hexec : DoesStmts exec execDeeds) {f : Callable}
    (hf : f.IsIn S m.heap) (harguments : m.heap.HasAll arguments) :
    Does S (fun _ => Heap.Has) m (Lox.invoke exec arguments f)
      (invokeTrace .objects exec execDeeds arguments f m) := by
  cases f with
  | closure c => exact hexec.runClosure hf harguments
  | constructor c => exact hexec.construct hf harguments
  | native f =>
    cases f with
    | clock => exact Does.readClock
    | printNative => exact Does.bind_silent Does.writeLine fun _ _ _ _ _ => Does.pure trivial

theorem Heap.Planted.callable? {h : Heap} (hh : h.Planted S) {callee : Value} {f : Callable}
    (hcallee : h.Has callee) (hf : h.callable? callee = some f) : f.IsIn S h := by
  cases callee with
  | function g =>
    cases hf
    exact hh.functions g hcallee
  | class_ c =>
    cases hf
    exact hcallee
  | native f =>
    cases hf
    trivial
  | _ => cases hf

theorem DoesStmts.callValue (hexec : DoesStmts exec execDeeds) {callee : Value}
    (hcallee : m.heap.Has callee) {paren : Token} (harguments : m.heap.HasAll arguments) :
    Does S (fun _ => Heap.Has) m (Lox.callValue exec callee paren arguments)
      (callValueTrace .objects exec execDeeds callee arguments m) := by
  refine .of_planted fun hm => Does.get_bind ?_
  unfold callValueTrace
  cases hf : m.heap.callable? callee with
  | none => exact Does.fail
  | some f =>
    simp only
    split
    · exact Does.fail
    split
    · exact Does.fail
    · exact Does.nested (hexec.invoke (m := { m with depth := m.depth + 1 })
        (hm.heap.callable? hcallee hf) harguments)

/-! ## Classes -/

theorem DoesExprs.superclassOf (heval : DoesExprs eval evalDeeds) {superclass : Option Expr} :
    Does S (fun _ h o => ∀ c ∈ o, c < h.classes.size) m (Lox.superclassOf eval name superclass)
      (superclassTrace evalDeeds superclass m) := by
  cases superclass with
  | none => exact Does.pure nofun
  | some e =>
    refine Does.bind_silent (heval e m) fun v m' _ _ hv => ?_
    cases v with
    | class_ c =>
      refine Does.pure fun c' hc' => ?_
      cases hc'
      exact hv
    | _ => exact Does.fail

theorem does_methodChain (decl : ClassDecl) {superclass : Option ClassId}
    (hsuperclass : ∀ c ∈ superclass, c < m.heap.classes.size) :
    Does S (fun S' _ chain => S' chain) m (methodChain superclass)
      (methodChainTrace .objects decl superclass m) := by
  refine .of_planted fun hm => Does.get_bind ?_
  cases superclass with
  | none => exact Does.pure hm.chain
  | some c =>
    have hc : m.heap.Has (.class_ c) := hsuperclass c rfl
    exact Does.bind_silent (R := fun S' _ id => S' (id :: m.chain))
      (Does.withHeap (Heap.Step.frame hm.chain (hc.singleton "super")).single (.inr rfl))
      fun id m' _ _ hid => Does.pure hid

/-- The static methods of a class were added to a heap as functions one after another, and the last
of those with one name was entered into a table. -/
structure Heap.AddsStatics (h : Heap) (chain : Chain) (ds : List FunctionDecl)
    (fields : Table Value) (h' : Heap) (fields' : Table Value) : Prop where
  values : ∀ v ∈ fields'.values, h'.Has v
  table : ∀ name, fields'.get? name =
    ((FunctionDecls.lastPlace? h.functions.size ds name).map .function).or (fields.get? name)
  size : h.functions.size ≤ h'.functions.size
  function : ∀ f < h.functions.size, h'.function f = h.function f
  added : h'.HasFunctions chain h.functions.size ds

theorem does_staticTable {chain : Chain} (hchain : S chain)
    (ds : List FunctionDecl) {fields : Table Value} (hfields : ∀ v ∈ fields.values, m.heap.Has v) :
    Does S (fun _ => m.heap.AddsStatics chain ds fields) m (staticTable chain ds fields) [] := by
  induction ds generalizing m S fields with
  | nil => exact Does.pure ⟨hfields, fun _ => rfl, Nat.le_refl _, fun _ _ => rfl, nofun⟩
  | cons d ds ih =>
    refine Does.bind_silent
      (R := fun _ h f => f = m.heap.functions.size ∧ h = (m.heap.newFunction ⟨d, chain, false⟩).2)
      (Does.withHeap (Heap.Step.function hchain).single ⟨rfl, rfl⟩) ?_
    rintro S' _ m' hwithin hseen ⟨rfl, hheap⟩
    have hsize : m'.heap.functions.size = m.heap.functions.size + 1 := by
      rw [hheap]
      simp [Heap.newFunction]
    have hfunction : ∀ f, m'.heap.function f =
        if f = m.heap.functions.size then ⟨d, chain, false⟩ else m.heap.function f := by
      intro f
      rw [hheap, Heap.function_newFunction]
    refine Does.imp (ih (hseen _ hchain) fun v hv => ?_) fun _ h t ht => ?_
    · rcases Table.mem_values_insert hv with rfl | hv
      · exact Nat.lt_of_lt_of_eq (Nat.lt_succ_self _) hsize.symm
      · exact (hfields v hv).mono hwithin
    obtain ⟨hvalues, htable, hle, hold, hnew⟩ := ht
    rw [hsize] at htable hle hold hnew
    refine ⟨hvalues, fun name => ?_, Nat.le_of_succ_le hle, fun f hf => ?_, fun k d' hd' => ?_⟩
    · rw [htable, FunctionDecls.lastPlace?_cons, Table.get?_insert, Option.map_or, Option.or_assoc]
      by_cases hname : d.name.lexeme = name
      · simp [hname]
      · simp [hname, Ne.symm hname]
    · rw [hold f (Nat.lt_succ_of_lt hf), hfunction, if_neg (Nat.ne_of_lt hf)]
    · cases k with
      | zero =>
        cases hd'
        exact ⟨hle, by rw [Nat.add_zero, hold _ (Nat.lt_succ_self _), hfunction, if_pos rfl]⟩
      | succ k =>
        have hk := hnew k d' hd'
        rwa [Nat.add_assoc, Nat.add_comm 1 k] at hk

theorem DoesExprs.declareClass (heval : DoesExprs eval evalDeeds) (decl : ClassDecl) :
    Does S (fun _ _ _ => True) m (Lox.declareClass eval decl)
      (declareClassTrace .objects eval evalDeeds decl m) := by
  refine Does.bind heval.superclassOf fun superclass m₁ _ _ hsuperclass => ?_
  refine Does.bind (does_define trivial) fun _ m₂ hwithin₂ _ _ => ?_
  have hsuperclass₂ : ∀ c ∈ superclass, c < m₂.heap.classes.size := fun c hc =>
    Nat.lt_of_lt_of_le (hsuperclass c hc) hwithin₂.classes
  refine Does.bind (does_methodChain decl hsuperclass₂) fun chain m₃ hwithin₃ _ hchain => ?_
  refine Does.bind (does_staticTable hchain decl.statics nofun)
    fun fields m₄ hwithin₄ hseen hadds => ?_
  have hsuperclass₄ : ∀ c ∈ superclass, c < m₄.heap.classes.size := fun c hc =>
    Nat.lt_of_lt_of_le (hsuperclass₂ c hc) (hwithin₃.trans hwithin₄).classes
  have hdeclared := Heap.Step.declared (d := ⟨decl, superclass, chain, m₃.heap.functions.size⟩)
    hsuperclass₄ (hseen _ hchain) hadds.values (fun name => by
      rw [hadds.table, Table.get?_empty, Option.or_none]
      rfl) hadds.added
  refine Does.bind_silent (R := fun _ h c => h.Has (.class_ c)) (Does.withHeap hdeclared.single ?_)
    fun c m₅ _ _ hc => Does.get_bind (does_assign hc)
  simp [Heap.newClass, Heap.Has]

/-! ## Programs -/

/-- One amount of fuel more: expressions. -/
theorem does_evaluate_succ {fuel : Nat}
    (heval : DoesExprs (evaluate fuel) (evaluateTrace .objects fuel))
    (hexec : DoesStmts (execute fuel) (executeTrace .objects fuel)) :
    DoesExprs (evaluate (fuel + 1)) (evaluateTrace .objects (fuel + 1)) := by
  intro S e m
  cases e with
  | literal l => exact Does.pure (Heap.has_of_not_isReference l.isReference_value)
  | grouping inner => exact heval inner m
  | unary op operand =>
    exact Does.bind_silent (heval operand m) fun _ _ _ _ _ => Does.ofExcept fun _ hr =>
      Heap.has_of_not_isReference (applyUnary_isReference hr)
  | binary left op right =>
    exact Does.bind (heval left m) fun _ m' _ _ _ =>
      Does.bind_silent (heval right m') fun _ _ _ _ _ => Does.ofExcept fun _ hr =>
        Heap.has_of_not_isReference (applyBinary_isReference hr)
  | logical left op right =>
    refine Does.bind (heval left m) fun a m' _ _ ha => ?_
    cases shortCircuits op a with
    | true => exact Does.pure ha
    | false => exact heval right m'
  | conditional c a b =>
    refine Does.bind (heval c m) fun v m' _ _ _ => ?_
    cases v.isTruthy with
    | true => exact heval a m'
    | false => exact heval b m'
  | var id name => exact does_lookUp
  | assign id name value =>
    exact Does.bind (heval value m) fun _ _ _ _ hv =>
      Does.bind_silent (does_overwrite hv) fun _ _ hwithin _ _ => Does.pure (hv.mono hwithin)
  | call callee paren arguments =>
    exact Does.bind (heval callee m) fun _ _ _ _ hf =>
      Does.bind (heval.evaluateAll arguments) fun _ _ hwithin _ hvs =>
        hexec.callValue (hf.mono hwithin) hvs
  | get object name => exact Does.bind (heval object m) fun _ _ _ _ hv => does_getProperty hv
  | set object name value =>
    exact Does.bind (heval object m) fun _ m' _ _ hv => does_setProperty hv (heval value m')
  | thisRef id keyword => exact does_lookUp
  | superRef id keyword method => exact does_superMember

/-- One amount of fuel more: statements. -/
theorem does_execute_succ {fuel : Nat}
    (heval : DoesExprs (evaluate fuel) (evaluateTrace .objects fuel))
    (hexec : DoesStmts (execute fuel) (executeTrace .objects fuel)) :
    DoesStmts (execute (fuel + 1)) (executeTrace .objects (fuel + 1)) := by
  intro S s m
  cases s with
  | expression e => exact Does.bind_silent (heval e m) fun _ _ _ _ _ => Does.pure .normal
  | print e =>
    exact Does.bind_silent (heval e m) fun _ _ _ _ _ =>
      Does.bind_silent Does.writeLine fun _ _ _ _ _ => Does.pure .normal
  | varDecl name value =>
    cases value with
    | none => exact Does.bind_silent (does_define trivial) fun _ _ _ _ _ => Does.pure .normal
    | some e =>
      exact Does.bind_silent (heval e m) fun _ _ _ _ hv =>
        Does.bind_silent (does_define hv) fun _ _ _ _ _ => Does.pure .normal
  | block body =>
    have hempty : ∀ v ∈ (∅ : Frame).values, m.heap.Has v := nofun
    exact .of_planted fun hm => Does.get_bind (hexec.executeInFrame hempty hm.chain _ body)
  | ifThen c a =>
    refine Does.bind (heval c m) fun v m' _ _ _ => ?_
    cases v.isTruthy with
    | true => exact hexec a m'
    | false => exact Does.pure .normal
  | ifElse c a b =>
    refine Does.bind (heval c m) fun v m' _ _ _ => ?_
    cases v.isTruthy with
    | true => exact hexec a m'
    | false => exact hexec b m'
  | whileLoop c body =>
    refine Does.bind (heval c m) fun v m' _ _ _ => ?_
    cases v.isTruthy with
    | false => exact Does.pure .normal
    | true =>
      refine Does.bind (hexec body m') fun completion m'' _ _ hcompletion => ?_
      cases hcompletion with
      | returned hv => exact Does.pure (.returned hv)
      | normal => exact hexec (.whileLoop c body) m''
  | funDecl decl =>
    refine .of_planted fun hm => Does.get_bind (Does.bind_silent
      (R := fun _ h f => h.Has (.function f))
      (Does.withHeap (Heap.Step.function hm.chain).single ?_) fun _ _ _ _ hf =>
        Does.bind_silent (does_define hf) fun _ _ _ _ _ => Does.pure .normal)
    simp [Heap.newFunction, Heap.Has]
  | returnWith keyword value =>
    cases value with
    | none => exact Does.pure (.returned trivial)
    | some e => exact Does.bind_silent (heval e m) fun _ _ _ _ hv => Does.pure (.returned hv)
  | classDecl decl =>
    exact Does.bind_silent (heval.declareClass decl) fun _ _ _ _ _ => Does.pure .normal

/-- Expressions and statements change a heap in steps. -/
theorem does_evaluate_execute (fuel : Nat) :
    DoesExprs (evaluate fuel) (evaluateTrace .objects fuel) ∧
      DoesStmts (execute fuel) (executeTrace .objects fuel) := by
  induction fuel with
  | zero => exact ⟨fun _ _ => Does.outOfFuel, fun _ _ => Does.outOfFuel⟩
  | succ fuel ih => exact ⟨does_evaluate_succ ih.1 ih.2, does_execute_succ ih.1 ih.2⟩

theorem does_interpret (fuel : Nat) (program : List Stmt) :
    Does S (fun _ _ _ => True) m (interpret fuel program)
      (interpretTrace .objects fuel program m) := by
  induction program generalizing m S with
  | nil => exact Does.pure trivial
  | cons s rest ih => exact Does.bind ((does_evaluate_execute fuel).2 s m) fun _ _ _ _ _ => ih

end

namespace Machine

variable {m : Machine} {S : Seen}

/-- A program changes the heap in steps and leaves a planted machine. -/
theorem Planted.job (hm : m.Planted S) (j : Job) :
    ∃ S', m.heap.Steps S (interpretTrace .objects j.fuel j.program (j.start m))
      (j.leaves m).heap S' ∧ (j.leaves m).Planted S' := by
  have hstart : (j.start m).Planted S := ⟨hm.heap, hm.chain⟩
  obtain ⟨S', hsteps, hchain⟩ := (does_interpret j.fuel j.program hstart).after
  exact ⟨S', hsteps, hstart.of_steps hsteps hchain⟩

/-- Programs that are run one after another change the heap in steps. -/
theorem Planted.history (hm : m.Planted S) (jobs : List Job) :
    ∃ S', m.heap.Steps S (m.deedsOf jobs) (m.leaves jobs).heap S' ∧ (m.leaves jobs).Planted S' := by
  induction jobs generalizing m S with
  | nil => exact ⟨S, .refl, hm⟩
  | cons j jobs ih =>
    obtain ⟨S₁, hsteps, hplanted⟩ := hm.job j
    obtain ⟨S₂, hrest, hafter⟩ := ih hplanted
    exact ⟨S₂, hsteps.trans hrest, hafter⟩

end Machine

end Lox
