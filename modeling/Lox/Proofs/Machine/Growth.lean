import Lox.Proofs.Machine.Context
import Lox.Proofs.Machine.Orderly

/-!
# How a heap grows

A program gives values to its own names and stores values in fields, and otherwise it only adds to
the heap. So what the language provides in a frame stays, a function stays what it is, a class keeps
its methods and the classes it inherits from, and an instance keeps its class. This holds of orderly
code on an orderly heap, however the code ends.
-/

namespace Lox

open Exec

variable {m : Machine} {name : Token} {e : Expr}

/-! ## Steps -/

theorem Exec.holds_after_bind {α β : Type} {P : Machine → Prop} {p : Exec α} {f : α → Exec β}
    {a : α} {m' : Machine} (h : p m = .ok a m') (hf : P ((f a).after m')) :
    P ((p >>= f).after m) := by
  rw [Exec.after_bind, h]
  exact hf

/-! ## Heaps -/

/-- A heap to which things were added, and in which names of programs and fields were given
values. -/
structure Heap.Grows (h h' : Heap) : Prop where
  frames : h.frames.Extends h'.frames
  functions : h.functions.size ≤ h'.functions.size
  function : ∀ f < h.functions.size, h'.function f = h.function f
  classes : h.classes.size ≤ h'.classes.size
  ancestors : ∀ c < h.classes.size, (h'.cls c).ancestors = (h.cls c).ancestors
  methods : ∀ c < h.classes.size, (h'.cls c).methods = (h.cls c).methods
  instances : h.instances.size ≤ h'.instances.size
  cls : ∀ i < h.instances.size, (h'.inst i).cls = (h.inst i).cls

/-- Something is given a value in any frame, be there such a frame or not. -/
theorem Frames.extends_define_any (fs : Frames) (id : FrameId) (v : Value) (hname : name.IsName) :
    fs.Extends (fs.define id name.lexeme v) := by
  by_cases hid : id < fs.size
  · exact extends_define v hid hname
  · have hsame : fs.define id name.lexeme v = fs := by
      have hcells : fs.cells.modify id (fun frame => frame.insert name.lexeme v) = fs.cells := by
        ext i h₁ h₂
        · simp
        · have hne : id ≠ i := fun heq => hid (heq ▸ h₂)
          simp [Array.getElem_modify, hne]
      rw [define, hcells]
    rw [hsame]
    exact .refl fs

namespace Heap

variable {h h' h'' : Heap}

theorem Grows.refl (h : Heap) : h.Grows h :=
  ⟨.refl _, Nat.le_refl _, fun _ _ => rfl, Nat.le_refl _, fun _ _ => rfl, fun _ _ => rfl,
    Nat.le_refl _, fun _ _ => rfl⟩

theorem Grows.trans (hh : h.Grows h') (hh' : h'.Grows h'') : h.Grows h'' where
  frames := hh.frames.trans hh'.frames
  functions := Nat.le_trans hh.functions hh'.functions
  function f hf :=
    (hh'.function f (Nat.lt_of_lt_of_le hf hh.functions)).trans (hh.function f hf)
  classes := Nat.le_trans hh.classes hh'.classes
  ancestors c hc :=
    (hh'.ancestors c (Nat.lt_of_lt_of_le hc hh.classes)).trans (hh.ancestors c hc)
  methods c hc := (hh'.methods c (Nat.lt_of_lt_of_le hc hh.classes)).trans (hh.methods c hc)
  instances := Nat.le_trans hh.instances hh'.instances
  cls i hi := (hh'.cls i (Nat.lt_of_lt_of_le hi hh.instances)).trans (hh.cls i hi)

theorem grows_frames {frames : Frames} (hframes : h.frames.Extends frames) :
    h.Grows { h with frames := frames } :=
  { Grows.refl h with frames := hframes }

theorem grows_newFunction (h : Heap) (c : Closure) : h.Grows (h.newFunction c).2 :=
  { Grows.refl h with
    functions := by simp [newFunction]
    function := fun f hf => by rw [function_newFunction, if_neg (Nat.ne_of_lt hf)] }

theorem grows_newClass (h : Heap) (c : ClassObject) : h.Grows (h.newClass c).2 :=
  { Grows.refl h with
    classes := by simp [newClass]
    ancestors := fun i hi => by rw [cls_newClass, if_neg (Nat.ne_of_lt hi)]
    methods := fun i hi => by rw [cls_newClass, if_neg (Nat.ne_of_lt hi)] }

theorem inst_newInstance (h : Heap) (c : ClassId) (i : InstanceId) :
    (h.newInstance c).2.inst i = if i = h.instances.size then ⟨c, ∅⟩ else h.inst i := by
  simp only [inst, newInstance, Array.getD_eq_getD_getElem?, Array.getElem?_push]
  split <;> rfl

theorem grows_newInstance (h : Heap) (c : ClassId) : h.Grows (h.newInstance c).2 :=
  { Grows.refl h with
    instances := by simp [newInstance]
    cls := fun i hi => by rw [inst_newInstance, if_neg (Nat.ne_of_lt hi)] }

theorem inst_setField (h : Heap) (i j : InstanceId) (name : String) (v : Value) :
    (h.setField i name v).inst j =
      if j = i ∧ i < h.instances.size then
        { h.inst j with fields := (h.inst j).fields.insert name v }
      else h.inst j := by
  simp only [inst, setField, Array.getD_eq_getD_getElem?, Array.getElem?_modify]
  by_cases hj : i = j
  · subst hj
    by_cases hi : i < h.instances.size <;> simp [hi]
  · rw [if_neg hj, if_neg fun h => hj h.1.symm]

theorem cls_setField (h : Heap) (i j : InstanceId) (name : String) (v : Value) :
    ((h.setField i name v).inst j).cls = (h.inst j).cls := by
  rw [inst_setField]
  split <;> rfl

theorem grows_setField (h : Heap) (i : InstanceId) (name : String) (v : Value) :
    h.Grows (h.setField i name v) :=
  { Grows.refl h with
    instances := by simp [setField]
    cls := fun j _ => cls_setField h i j name v }

theorem ancestors_setClassField (h : Heap) (c i : ClassId) (name : String) (v : Value) :
    ((h.setClassField c name v).cls i).ancestors = (h.cls i).ancestors := by
  simp only [cls, setClassField, Array.getD_eq_getD_getElem?, Array.getElem?_modify]
  split
  · cases h.classes[i]? <;> rfl
  · rfl

theorem grows_setClassField (h : Heap) (c : ClassId) (name : String) (v : Value) :
    h.Grows (h.setClassField c name v) :=
  { Grows.refl h with
    classes := by simp [setClassField]
    ancestors := fun i _ => ancestors_setClassField h c i name v
    methods := fun i _ => methods_setClassField h c i name v }

end Heap

/-! ## Machines -/

/-- The heap of a machine has grown from the given one and is orderly. -/
def Machine.Above (K : Heap) (m : Machine) : Prop := K.Grows m.heap ∧ m.heap.Orderly

section

variable {α : Type} {K : Heap} {eval : Expr → Exec Value} {exec : Stmt → Exec Completion}

theorem Machine.Above.change {m' : Machine} (h : m.Above K) (hgrows : m.heap.Grows m'.heap)
    (horderly : m'.heap.Orderly) : m'.Above K := ⟨h.1.trans hgrows, horderly⟩

/-- Only frames are added or given names. -/
theorem Machine.Above.frames {m : Machine} (h : m.Above K) {frames : Frames}
    (hframes : m.heap.frames.Extends frames) :
    Machine.Above K { m with heap := { m.heap with frames := frames } } :=
  h.change (Heap.grows_frames hframes) ⟨h.2.functions, h.2.methods⟩

/-- A step lets the heap grow. -/
abbrev KeepsAbove (K : Heap) (p : Exec α) : Prop := Keeps (Machine.Above K) p

theorem keepsAbove_newFrame (frame : Frame) :
    KeepsAbove K (withHeap fun h => h.newFrame frame) :=
  fun _ hm => hm.frames (Frames.extends_push _ _)

theorem keepsAbove_defineIn (id : FrameId) (hname : name.IsName) (v : Value) :
    KeepsAbove K (defineIn id name.lexeme v) :=
  fun _ hm => hm.frames (Frames.extends_define_any _ id v hname)

theorem keepsAbove_define (hname : name.IsName) (v : Value) :
    KeepsAbove K (define name.lexeme v) := by
  refine keeps_get_bind fun m hm => ?_
  cases m.chain with
  | nil => exact hm
  | cons id outer => exact keepsAbove_defineIn id hname v m hm

theorem keepsAbove_assign (chain : Chain) (hname : name.IsName) (v : Value) :
    KeepsAbove K (assign chain name v) :=
  keeps_get_bind fun m hm =>
    (keeps_ofExcept name _).bind (fun id => keepsAbove_defineIn id hname v) m hm

theorem keepsAbove_assignAt (distance : Nat) (hname : name.IsName) (v : Value) :
    KeepsAbove K (assignAt distance name v) :=
  keeps_get_bind fun m hm =>
    (keeps_ofExcept name _).bind (fun id => keepsAbove_defineIn id hname v) m hm

theorem keepsAbove_overwrite (id : NodeId) (hname : name.IsName) (v : Value) :
    KeepsAbove K (overwrite id name v) := by
  refine keeps_get_bind fun m hm => ?_
  cases m.locals[id]? with
  | some distance => exact keepsAbove_assignAt distance hname v m hm
  | none => exact keepsAbove_assign globalChain hname v m hm

theorem keepsAbove_writeLine (v : Value) : KeepsAbove K (writeLine v) := by
  intro m hm
  simp only [after, writeLine]
  cases hline : m.sink.writeLine (m.heap.text v) with
  | mk fault sink => cases fault <;> exact hm

/-! ## Members -/

theorem keepsAbove_getMember (start : ClassId) (i : InstanceId) (name : Token) :
    KeepsAbove K (getMember start i name) := by
  refine keeps_get_bind fun m hm => ?_
  cases h : m.heap.member? start i name.lexeme with
  | none => exact hm
  | some member =>
    cases member with
    | field v => exact hm
    | method c =>
      have hframe := hm.frames (Frames.extends_push m.heap.frames
        ((∅ : Frame).insert "this" (.instance_ i)))
      exact hframe.change (Heap.grows_newFunction _ _) (hframe.2.newFunction (hm.2.member? h).1)

theorem keepsAbove_getProperty (object : Value) (name : Token) :
    KeepsAbove K (getProperty object name) := by
  refine keeps_get_bind fun m hm => ?_
  cases object with
  | instance_ i => exact keepsAbove_getMember _ i name m hm
  | class_ c =>
    simp only
    cases m.heap.classField? c name.lexeme <;> exact hm
  | _ => exact hm

theorem keepsAbove_setProperty (object : Value) (name : Token) {value : Exec Value}
    (hvalue : KeepsAbove K value) : KeepsAbove K (setProperty object name value) := by
  cases object with
  | instance_ i =>
    exact hvalue.bind fun v m hm => hm.change (Heap.grows_setField _ i _ v)
      ⟨hm.2.functions, hm.2.methods⟩
  | class_ c =>
    exact hvalue.bind fun v m hm => hm.change (Heap.grows_setClassField _ c _ v)
      (hm.2.setClassField c _ v)
  | _ => exact keeps_fail name _

theorem keepsAbove_superMember (id : NodeId) (keyword method : Token) :
    KeepsAbove K (superMember id keyword method) := by
  refine keeps_get_bind fun m hm => ?_
  match m.locals[id]? with
  | none | some 0 => exact hm
  | some (distance + 1) =>
    refine Keeps.bind (keeps_ofExcept keyword _) (fun superclass => Keeps.bind
      (keeps_ofExcept keyword _) fun receiver => ?_) m hm
    split
    · exact keepsAbove_getMember _ _ method
    · exact keeps_fail keyword _

/-! ## Calls and declarations -/

/-- How deep a call is does not matter for the heap. -/
theorem keepsAbove_nested {p : Exec α} (hp : KeepsAbove K p) : KeepsAbove K (nested p) :=
  fun m hm => by
    rw [after_nested]
    exact hp { m with depth := m.depth + 1 } hm

/-- Statements that are orderly let the heap grow. -/
def ExecutesAbove (K : Heap) (exec : Stmt → Exec Completion) : Prop :=
  ∀ s, s.Orderly → KeepsAbove K (exec s)

namespace ExecutesAbove

theorem executeInFrame (hexec : ExecutesAbove K exec) {body : List Stmt}
    (hbody : Stmts.Orderly body) (frame : Frame) (chain : Chain) :
    KeepsAbove K (executeInFrame exec frame chain body) :=
  (keepsAbove_newFrame frame).bind fun id =>
    (Machine.Stable.keeps_executeAll fun s hs => hexec s (hbody.of_mem s hs)).inChain
      (fun _ _ hm => hm) (id :: chain)

theorem runClosure (hexec : ExecutesAbove K exec) {c : Closure} (hc : c.decl.Orderly)
    (arguments : List Value) : KeepsAbove K (runClosure exec c arguments) :=
  Machine.Stable.keeps_runClosure (fun frame => hexec.executeInFrame hc.body frame c.chain)
    arguments

theorem construct (hexec : ExecutesAbove K exec) (c : ClassId) (arguments : List Value) :
    KeepsAbove K (construct exec c arguments) := by
  have hnew : KeepsAbove K (withHeap fun h => h.newInstance c) := fun m hm =>
    hm.change (Heap.grows_newInstance _ c) ⟨hm.2.functions, hm.2.methods⟩
  refine hnew.bind fun i => keeps_get_bind fun m hm => ?_
  cases h : m.heap.initializer? c with
  | none => exact hm
  | some init =>
    have hinit : init.decl.Orderly := (hm.2.findMethod? h).1
    have hrun := hexec.runClosure (c := { init with chain := m.heap.frames.next :: init.chain })
      hinit arguments
    exact hrun.bind (fun _ => keeps_pure _) _ (hm.frames (Frames.extends_push _ _))

theorem invoke (hexec : ExecutesAbove K exec) (arguments : List Value) {f : Callable}
    (hf : ∀ c, f = .closure c → c.decl.Orderly) : KeepsAbove K (invoke exec arguments f) := by
  cases f with
  | closure c => exact hexec.runClosure (hf c rfl) arguments
  | native f =>
    cases f with
    | clock => exact fun _ hm => hm
    | printNative => exact (keepsAbove_writeLine _).bind fun _ => keeps_pure _
  | constructor c => exact hexec.construct c arguments

end ExecutesAbove

theorem ExecutesAbove.callValue (hexec : ExecutesAbove K exec) (callee : Value) (paren : Token)
    (arguments : List Value) : KeepsAbove K (callValue exec callee paren arguments) := by
  refine keeps_get_bind fun m hm => ?_
  cases hf : m.heap.callable? callee with
  | none => exact hm
  | some f =>
    simp only
    split
    · exact hm
    · split
      · exact hm
      · exact keepsAbove_nested (hexec.invoke arguments (hm.2.callable? hf)) m hm

theorem keepsAbove_newFunction {d : FunctionDecl} (hd : d.Orderly) (chain : Chain) :
    KeepsAbove K (withHeap fun h => h.newFunction ⟨d, chain, false⟩) := fun _ hm =>
  hm.change (Heap.grows_newFunction _ _) (hm.2.newFunction hd)

theorem keepsAbove_methodChain (superclass : Option ClassId) :
    KeepsAbove K (methodChain superclass) := by
  refine keeps_get_bind fun m hm => ?_
  cases superclass with
  | none => exact hm
  | some c => exact hm.frames (Frames.extends_push _ _)

theorem keepsAbove_newClass {decl : ClassDecl} (hdecl : ∀ f ∈ decl.methods, f.Orderly)
    (superclass : Option ClassId) (chain : Chain) (fields : Table Value) :
    KeepsAbove K (withHeap fun h => h.newClass
      { name := decl.name.lexeme
        ancestors := (superclass.map h.lineage).getD []
        methods := methodTable chain decl.methods
        fields := fields }) := by
  refine fun m hm => hm.change (Heap.grows_newClass _ _) (hm.2.newClass fun name c hc => ?_)
  obtain ⟨-, hmem, hinit⟩ := get?_methodTable hc
  exact ⟨hdecl _ hmem, hinit⟩

/-- The heap grows behind the superclass clause of a class. -/
theorem above_declareClass {decl : ClassDecl} (hdecl : (Stmt.classDecl decl).Orderly)
    (h : ((superclassOf eval decl.name decl.superclass).after m).Above K) :
    ((declareClass eval decl).after m).Above K := by
  have hname : decl.name.IsName := by
    obtain ⟨name, superclass, methods, statics⟩ := decl
    exact hdecl.1.1
  have hmembers := List.forall_mem_append.1 hdecl.members
  refine Keeps.after_bind (fun superclass => (keepsAbove_define hname _).bind fun _ =>
    (keepsAbove_methodChain superclass).bind fun chain =>
      (Machine.Stable.keeps_staticTable ∅ fun d hd m hm =>
        keepsAbove_newFunction (hmembers.1 d hd) chain m hm).bind fun fields =>
          (keepsAbove_newClass hmembers.2 superclass chain fields).bind fun c => ?_) h
  exact keeps_get_bind fun m hm => keepsAbove_assign m.chain hname _ m hm

theorem above_superclassOf (h : ((eval e).after m).Above K) :
    ((superclassOf eval name (some e)).after m).Above K := by
  refine Keeps.after_bind (fun v => ?_) h
  cases v with
  | class_ c => exact keeps_pure _
  | _ => exact keeps_fail _ _

/-! ## Expressions and statements -/

variable {fuel : Nat}

/-- The heap grows behind the part of an expression that is evaluated first. -/
theorem above_after_first (heval : ∀ e, e.WellFormed → KeepsAbove K (evaluate fuel e))
    (hexec : ExecutesAbove K (execute fuel)) {e' : Expr} (he : e.WellFormed)
    (h : e.first? = some e') (hK : ((evaluate fuel e').after m).Above K) :
    ((evaluate (fuel + 1) e).after m).Above K := by
  cases e with
  | literal | var | thisRef | superRef => cases h
  | grouping =>
    cases h
    exact hK
  | unary op _ =>
    cases h
    exact Keeps.after_bind (fun v => keeps_ofExcept op _) hK
  | binary _ op right =>
    cases h
    exact Keeps.after_bind (fun a => (heval right he.2.2).bind fun b => keeps_ofExcept op _) hK
  | logical _ op right =>
    cases h
    refine Keeps.after_bind (fun a => ?_) hK
    split
    · exact keeps_pure a
    · exact heval right he.2
  | conditional _ a b =>
    cases h
    refine Keeps.after_bind (fun v => ?_) hK
    split
    · exact heval a he.2.1
    · exact heval b he.2.2
  | assign id name _ =>
    cases h
    exact Keeps.after_bind (fun v => (keepsAbove_overwrite id he.1 v).bind
      fun _ => keeps_pure v) hK
  | call _ paren es =>
    cases h
    have hes := Exprs.wellFormed_iff.1 he.2
    exact Keeps.after_bind (fun f => (Machine.Stable.keeps_evaluateAll fun e hmem =>
      heval e (hes e hmem)).bind fun vs => hexec.callValue f paren vs) hK
  | get _ name =>
    cases h
    exact Keeps.after_bind (fun v => keepsAbove_getProperty v name) hK
  | set _ name value =>
    cases h
    exact Keeps.after_bind (fun v => keepsAbove_setProperty v name (heval value he.2)) hK

theorem keepsAbove_evaluate_succ (heval : ∀ e, e.WellFormed → KeepsAbove K (evaluate fuel e))
    (hexec : ExecutesAbove K (execute fuel)) (he : e.WellFormed) :
    KeepsAbove K (evaluate (fuel + 1) e) := by
  cases hfirst : e.first? with
  | some e' =>
    exact fun m hm =>
      above_after_first heval hexec he hfirst (heval e' (he.first hfirst) m hm)
  | none =>
    cases e with
    | literal l => exact keeps_pure _
    | var id name => exact Machine.Stable.keeps_lookUp id name
    | thisRef id keyword => exact Machine.Stable.keeps_lookUp id keyword
    | superRef id keyword method => exact keepsAbove_superMember id keyword method
    | _ => cases hfirst

/-- The heap grows behind the expression of a statement. -/
theorem above_after_expression (hexec : ExecutesAbove K (execute fuel)) {s : Stmt} (hs : s.Orderly)
    (h : e ∈ s.expressions) (hK : ((evaluate fuel e).after m).Above K) :
    ((execute (fuel + 1) s).after m).Above K := by
  have hbranch : ∀ a ∈ s.branches, KeepsAbove K (execute fuel a) :=
    fun a ha => hexec a (hs.branch ha)
  cases s with
  | block | funDecl => cases h
  | expression =>
    obtain rfl := List.mem_singleton.1 h
    exact Keeps.after_bind (fun _ => keeps_pure _) hK
  | print =>
    obtain rfl := List.mem_singleton.1 h
    exact Keeps.after_bind (fun v => (keepsAbove_writeLine v).bind fun _ => keeps_pure _) hK
  | varDecl name value =>
    obtain rfl := Option.mem_toList.1 h
    exact Keeps.after_bind (fun v => (keepsAbove_define hs.1.1 v).bind fun _ => keeps_pure _) hK
  | ifThen c a =>
    obtain rfl := List.mem_singleton.1 h
    refine Keeps.after_bind (fun v => ?_) hK
    split
    · exact hbranch a List.mem_cons_self
    · exact keeps_pure _
  | ifElse c a b =>
    obtain rfl := List.mem_singleton.1 h
    refine Keeps.after_bind (fun v => ?_) hK
    split
    · exact hbranch a List.mem_cons_self
    · exact hbranch b (by simp [Stmt.branches])
  | whileLoop c body =>
    obtain rfl := List.mem_singleton.1 h
    refine Keeps.after_bind (fun v => ?_) hK
    split
    · refine (hbranch body List.mem_cons_self).bind fun completion => ?_
      cases completion with
      | returned v => exact keeps_pure _
      | normal => exact hbranch _ (by simp [Stmt.branches])
    · exact keeps_pure _
  | returnWith keyword value =>
    obtain rfl := Option.mem_toList.1 h
    exact Keeps.after_bind (fun _ => keeps_pure _) hK
  | classDecl decl =>
    have hclause : ((superclassOf (evaluate fuel) decl.name decl.superclass).after m).Above K := by
      rw [Option.mem_toList.1 h]
      exact above_superclassOf hK
    exact Keeps.after_bind (fun _ => keeps_pure _) (above_declareClass hs hclause)

/-- One amount of fuel more: statements. Most evaluate an expression first. -/
theorem keepsAbove_execute_succ (heval : ∀ e, e.WellFormed → KeepsAbove K (evaluate fuel e))
    (hexec : ExecutesAbove K (execute fuel)) : ExecutesAbove K (execute (fuel + 1)) := by
  intro s hs
  cases hexpressions : s.expressions with
  | cons e es =>
    have he : e ∈ s.expressions := hexpressions ▸ List.mem_cons_self
    exact fun m hm =>
      above_after_expression hexec hs he (heval e (hs.1.expressions e he) m hm)
  | nil =>
    cases s with
    | varDecl name value =>
      obtain rfl := Option.toList_eq_nil_iff.1 hexpressions
      exact (keepsAbove_define hs.1.1 _).bind fun _ => keeps_pure _
    | block body =>
      exact keeps_get_bind fun m hm => hexec.executeInFrame hs.block ∅ m.chain m hm
    | funDecl decl =>
      refine keeps_get_bind fun m hm => ?_
      exact (keepsAbove_newFunction hs.funDecl m.chain).bind
        (fun f => (keepsAbove_define (FunctionDecl.WellFormed.isName hs.1) _).bind
          fun _ => keeps_pure _) m hm
    | returnWith keyword value =>
      obtain rfl := Option.toList_eq_nil_iff.1 hexpressions
      exact keeps_pure _
    | classDecl decl =>
      have hclause : KeepsAbove K (superclassOf (evaluate fuel) decl.name decl.superclass) := by
        rw [Option.toList_eq_nil_iff.1 hexpressions]
        exact keeps_pure none
      exact fun m hm => Keeps.after_bind (fun _ => keeps_pure _)
        (above_declareClass hs (hclause m hm))
    | _ => cases hexpressions

/-- Orderly code lets the heap grow, however it ends. By induction on the fuel. -/
theorem keepsAbove (K : Heap) (fuel : Nat) :
    (∀ e, e.WellFormed → KeepsAbove K (evaluate fuel e)) ∧ ExecutesAbove K (execute fuel) := by
  induction fuel with
  | zero => exact ⟨fun _ _ _ hm => hm, fun _ _ _ hm => hm⟩
  | succ fuel ih =>
    exact ⟨fun _ he => keepsAbove_evaluate_succ ih.1 ih.2 he, keepsAbove_execute_succ ih.1 ih.2⟩

theorem keepsAbove_interpret (K : Heap) (fuel : Nat) {ss : List Stmt} (hss : Stmts.Orderly ss) :
    KeepsAbove K (interpret fuel ss) := by
  induction ss with
  | nil => exact keeps_pure ()
  | cons s ss ih => exact ((keepsAbove K fuel).2 s hss.head).bind fun _ => ih hss.tail

end

end Lox
