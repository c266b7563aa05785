import Lox.Proofs.Machine.Context
import Lox.Proofs.Machine.Soundness
import Lox.Proofs.Scope.Returns

/-!
# Functions whose returns are allowed

A statement ends by reaching its end or by a return. How a statement of a function may end depends
on the kind of the function: one of the top level does not return, and one of an initializer returns
no value of its own. Statements whose returns are allowed end as they may.

Each function on the heap was declared by some program. If the returns of all programs are allowed,
then so are those of all functions and methods on the heap, whatever the programs do.
-/

namespace Lox

open Exec

variable {α β : Type} {exec : Stmt → Exec Completion} {fuel : Nat} {role : FunctionRole}

/-! ## How statements end -/

namespace Exec

variable {Q : β → Prop}

/-- A step that gives a result gives one that is as `Q` says. -/
def Gives (Q : α → Prop) (p : Exec α) : Prop := ∀ m a m', p m = .ok a m' → Q a

theorem gives_pure {b : β} (h : Q b) : Gives Q (pure b) := by
  intro m a m' hrun
  cases hrun
  exact h

theorem Gives.bind {p : Exec α} {f : α → Exec β} {R : α → Prop} (hp : Gives R p)
    (hf : ∀ a, R a → Gives Q (f a)) : Gives Q (p >>= f) := by
  intro m b m' hrun
  simp only [Bind.bind, EStateM.bind] at hrun
  cases hp' : p m with
  | ok a m₁ =>
    rw [hp'] at hrun
    exact hf a (hp m a m₁ hp') m₁ b m' hrun
  | error h m₁ =>
    rw [hp'] at hrun
    cases hrun

/-- What a step gives does not depend on the first part of it. -/
theorem gives_bind {p : Exec α} {f : α → Exec β} (hf : ∀ a, Gives Q (f a)) : Gives Q (p >>= f) :=
  Gives.bind (R := fun _ => True) (fun _ _ _ _ => trivial) fun a _ => hf a

theorem Gives.inChain {p : Exec β} (hp : Gives Q p) (chain : Chain) :
    Gives Q (inChain chain p) := by
  intro m b m' hrun
  simp only [Exec.inChain] at hrun
  cases hp' : p { m with chain := chain } with
  | ok a m₁ =>
    rw [hp'] at hrun
    cases hrun
    exact hp _ _ _ hp'
  | error h m₁ =>
    rw [hp'] at hrun
    cases hrun

end Exec

/-- A statement of a function of the given kind may end like this. -/
def Completion.AllowedIn (role : FunctionRole) : Completion → Prop
  | normal => True
  | returned v => role ≠ .topLevel ∧ (role = .initializer → v = .nil)

theorem gives_executeAll {ss : List Stmt}
    (hss : ∀ s ∈ ss, Gives (Completion.AllowedIn role) (exec s)) :
    Gives (Completion.AllowedIn role) (executeAll exec ss) := by
  induction ss with
  | nil => exact gives_pure trivial
  | cons s ss ih =>
    obtain ⟨hs, hss⟩ := List.forall_mem_cons.1 hss
    refine hs.bind fun completion hcompletion => ?_
    cases completion with
    | normal => exact ih hss
    | returned v => exact gives_pure hcompletion

/-- Statements whose returns are allowed end as is allowed. -/
theorem gives_execute (fuel : Nat) {s : Stmt} (hs : s.ReturnsIn role) :
    Gives (Completion.AllowedIn role) (execute fuel s) := by
  induction fuel generalizing s with
  | zero => exact fun _ _ _ hrun => by cases hrun
  | succ fuel ih =>
    cases s with
    | expression e => exact gives_bind fun _ => gives_pure trivial
    | print e => exact gives_bind fun _ => gives_bind fun _ => gives_pure trivial
    | varDecl name value =>
      cases value with
      | none => exact gives_bind fun _ => gives_pure trivial
      | some e => exact gives_bind fun _ => gives_bind fun _ => gives_pure trivial
    | block body =>
      have hbody := gives_executeAll fun s hs' => ih (Stmts.returnsIn_iff.1 hs s hs')
      exact gives_bind fun m => gives_bind fun id => hbody.inChain (id :: m.chain)
    | ifThen c a =>
      refine gives_bind fun v => ?_
      split
      · exact ih hs
      · exact gives_pure trivial
    | ifElse c a b =>
      refine gives_bind fun v => ?_
      split
      · exact ih hs.1
      · exact ih hs.2
    | whileLoop c body =>
      refine gives_bind fun v => ?_
      split
      · have hbody : body.ReturnsIn role := hs
        refine (ih hbody).bind fun completion hcompletion => ?_
        cases completion with
        | returned v => exact gives_pure hcompletion
        | normal => exact ih hs
      · exact gives_pure trivial
    | funDecl decl =>
      exact gives_bind fun _ => gives_bind fun _ => gives_bind fun _ => gives_pure trivial
    | returnWith keyword value =>
      obtain ⟨htop, hvalue⟩ := hs
      cases value with
      | none => exact gives_pure ⟨htop, fun _ => rfl⟩
      | some e =>
        exact gives_bind fun v => gives_pure ⟨htop, fun hinit => absurd hinit (hvalue rfl)⟩
    | classDecl decl => exact gives_bind fun _ => gives_pure trivial

/-! ## The functions on the heap -/

/-- The returns of a function are allowed in a function of its kind. -/
def Closure.Lawful (c : Closure) : Prop :=
  ∃ role, c.decl.ReturnsIn role ∧ (c.isInitializer = true → role = .initializer)

def Machine.Lawful (m : Machine) : Prop := m.heap.All Closure.Lawful Closure.Lawful

/-- The frames that a function sees do not matter. -/
theorem Closure.Lawful.withChain {c : Closure} (hc : c.Lawful) (chain : Chain) :
    Closure.Lawful { c with chain := chain } := hc

theorem Closure.Lawful.addable {c : Closure} (hc : c.Lawful) : c.Addable Machine.Lawful :=
  fun _ hm => hm.newFunction hc

theorem lawful_of_returnsIn_function {d : FunctionDecl} (hd : d.ReturnsIn .function)
    (chain : Chain) : Closure.Lawful ⟨d, chain, false⟩ := ⟨.function, hd, nofun⟩

theorem Machine.stable_lawful : Machine.Stable Machine.Lawful where
  frames _ _ _ h := ⟨h.functions, h.methods⟩
  instances _ _ _ h := ⟨h.functions, h.methods⟩
  classField _ c name v h := h.setClassField c name v
  sink _ _ h := h
  clock _ _ h := h
  bound m id name method chain hmethod h := by
    have hlawful := h.methods id name method hmethod
    exact (hlawful.withChain chain).addable m h

/-- The methods of a class whose returns are allowed. -/
theorem lawful_methodTable {chain : Chain} {ds : List FunctionDecl}
    (hds : FunctionDecls.ReturnsIn Resolution.methodRole ds) {name : String} {c : Closure}
    (hc : (methodTable chain ds).get? name = some c) : c.Lawful := by
  obtain ⟨-, hmem, hinit⟩ := get?_methodTable hc
  refine ⟨_, FunctionDecls.returnsIn_iff.1 hds _ hmem, fun h => ?_⟩
  rw [Resolution.methodRole, if_pos (hinit ▸ h)]

/-! ## What running code does to the heap -/

/-- Statements whose returns are allowed keep the heap lawful. -/
def ExecutesLawfully (exec : Stmt → Exec Completion) : Prop :=
  ∀ role s, s.ReturnsIn role → Keeps Machine.Lawful (exec s)

namespace ExecutesLawfully

theorem executeAll (hexec : ExecutesLawfully exec) {ss : List Stmt}
    (hss : Stmts.ReturnsIn role ss) : Keeps Machine.Lawful (executeAll exec ss) :=
  Machine.Stable.keeps_executeAll fun s hs => hexec role s (Stmts.returnsIn_iff.1 hss s hs)

theorem executeInFrame (hexec : ExecutesLawfully exec) {body : List Stmt}
    (hbody : Stmts.ReturnsIn role body) (frame : Frame) (chain : Chain) :
    Keeps Machine.Lawful (executeInFrame exec frame chain body) :=
  (Machine.stable_lawful.keeps_newFrame frame).bind fun id =>
    (hexec.executeAll hbody).inChain (fun _ _ hm => hm) (id :: chain)

theorem runClosure (hexec : ExecutesLawfully exec) {c : Closure} (hc : c.Lawful)
    (arguments : List Value) : Keeps Machine.Lawful (runClosure exec c arguments) := by
  obtain ⟨role, hdecl, -⟩ := hc
  have hbody := FunctionDecl.returnsIn_iff.1 hdecl
  exact Machine.Stable.keeps_runClosure (fun frame => hexec.executeInFrame hbody frame c.chain)
    arguments

/-- All functions on a lawful heap are lawful, so each that is called is. -/
theorem callValue (hexec : ExecutesLawfully exec) (callee : Value) (paren : Token)
    (arguments : List Value) : Keeps Machine.Lawful (callValue exec callee paren arguments) := by
  have hP := Machine.stable_lawful
  refine keeps_get_bind fun m hm => ?_
  cases hf : m.heap.callable? callee with
  | none => exact hm
  | some f =>
    have hinvoke : Machine.Lawful
        ((Lox.invoke exec arguments f).after { m with depth := m.depth + 1 }) := by
      cases callee with
      | function id =>
        cases hf
        exact hexec.runClosure (hm.functions id) arguments _ hm
      | native g =>
        cases hf
        cases g with
        | clock => exact hP.keeps_readClock _ hm
        | printNative => exact (hP.keeps_writeLine _).bind (fun _ => keeps_pure _) _ hm
      | class_ c =>
        cases hf
        refine hP.after_construct (fun init chain hinit => ?_) (hP.keeps_newInstance c m hm)
        have hlawful : init.Lawful := hm.findMethod? hinit
        exact hexec.runClosure (hlawful.withChain chain) arguments
      | _ => cases hf
    simp only
    split
    · exact hm
    · split
      · exact hm
      · rw [after_nested]
        exact hinvoke

end ExecutesLawfully

theorem Stmt.ReturnsIn.of_mem_branches {s a : Stmt} (hs : s.ReturnsIn role)
    (ha : a ∈ s.branches) : a.ReturnsIn role := by
  cases s with
  | ifThen c a' =>
    obtain rfl := List.mem_singleton.1 ha
    exact hs
  | ifElse c a' b =>
    rcases List.mem_cons.1 ha with rfl | ha
    · exact hs.1
    · obtain rfl := List.mem_singleton.1 ha
      exact hs.2
  | whileLoop c body =>
    rcases List.mem_cons.1 ha with rfl | ha
    · exact hs
    · obtain rfl := List.mem_singleton.1 ha
      exact hs
  | _ => cases ha

/-- Expressions, and statements whose returns are allowed, keep the heap lawful. -/
theorem keeps_lawful (fuel : Nat) :
    (∀ e, Keeps Machine.Lawful (evaluate fuel e)) ∧ ExecutesLawfully (execute fuel) := by
  induction fuel with
  | zero => exact ⟨fun _ _ hm => hm, fun _ _ _ _ hm => hm⟩
  | succ fuel ih =>
    obtain ⟨heval, hexec⟩ := ih
    have hP := Machine.stable_lawful
    refine ⟨keeps_evaluate_succ hP heval hexec.callValue, fun role s hs => ?_⟩
    refine keeps_execute_succ hP heval (fun a ha => hexec role a (hs.of_mem_branches ha)) ?_ ?_ ?_
    · rintro body chain rfl
      exact hexec.executeInFrame hs ∅ chain
    · rintro decl chain rfl
      exact (lawful_of_returnsIn_function hs chain).addable
    · rintro ⟨name, superclass, methods, statics⟩ rfl
      refine hP.keeps_declareClass heval (fun d hd chain => ?_) fun m c chain hc hm => ?_
      · have hd' := FunctionDecls.returnsIn_iff.1 hs.2 d hd
        exact (lawful_of_returnsIn_function hd' chain).addable
      · exact hm.newClass fun x method hmethod => lawful_methodTable hs.1 (hc ▸ hmethod)

theorem keeps_lawful_interpret (fuel : Nat) {ss : List Stmt} (hss : Stmts.ReturnsIn role ss) :
    Keeps Machine.Lawful (interpret fuel ss) := by
  induction ss with
  | nil => exact keeps_pure _
  | cons s ss ih => exact ((keeps_lawful fuel).2 role s hss.1).bind fun _ => ih hss.2

end Lox
