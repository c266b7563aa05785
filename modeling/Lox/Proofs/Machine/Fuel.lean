import Lox.Machine.Evaluation

/-!
# Running programs with more fuel

Every answer with some amount of fuel is also the answer with more. The recursion is opened for
this: a step of evaluating an expression or executing a statement takes as parameters how its
parts are run, and if with other parameters each part does the same unless it runs out of fuel,
so does the step.
-/

namespace Lox

open Exec

/-! ## One step of the recursion -/

/-- Evaluate an expression whose parts are run in the given ways. -/
def evaluateWith (eval : Expr → Exec Value) (exec : Stmt → Exec Completion) : Expr → Exec Value
  | .literal l => pure l.value
  | .grouping inner => eval inner
  | .unary op operand => do
    let v ← eval operand
    ofExcept op (applyUnary op v)
  | .binary left op right => do
    let a ← eval left
    let b ← eval right
    ofExcept op (applyBinary op a b)
  | .logical left op right => do
    let a ← eval left
    if shortCircuits op a then pure a else eval right
  | .conditional c a b => do
    let v ← eval c
    if v.isTruthy then eval a else eval b
  | .var id name => lookUp id name
  | .assign id name value => do
    let v ← eval value
    overwrite id name v
    pure v
  | .call callee paren arguments => do
    let f ← eval callee
    let vs ← evaluateAll eval arguments
    callValue exec f paren vs
  | .get object name => do
    let v ← eval object
    getProperty v name
  | .set object name value => do
    let v ← eval object
    setProperty v name (eval value)
  | .thisRef id keyword => lookUp id keyword
  | .superRef id keyword method => superMember id keyword method

/-- Execute a statement whose parts are run in the given ways. -/
def executeWith (eval : Expr → Exec Value) (exec : Stmt → Exec Completion) :
    Stmt → Exec Completion
  | .expression e => do
    let _ ← eval e
    pure .normal
  | .print e => do
    let v ← eval e
    writeLine v
    pure .normal
  | .varDecl name none => do
    define name.lexeme .nil
    pure .normal
  | .varDecl name (some e) => do
    let v ← eval e
    define name.lexeme v
    pure .normal
  | .block body => do
    let m ← get
    executeInFrame exec ∅ m.chain body
  | .ifThen c a => do
    let v ← eval c
    if v.isTruthy then exec a else pure .normal
  | .ifElse c a b => do
    let v ← eval c
    if v.isTruthy then exec a else exec b
  | .whileLoop c body => do
    let v ← eval c
    if v.isTruthy then
      match ← exec body with
      | .returned v => pure (.returned v)
      | .normal => exec (.whileLoop c body)
    else pure .normal
  | .funDecl decl => do
    let m ← get
    let f ← withHeap fun h => h.newFunction ⟨decl, m.chain, false⟩
    define decl.name.lexeme (.function f)
    pure .normal
  | .returnWith _ none => pure (.returned .nil)
  | .returnWith _ (some e) => do
    let v ← eval e
    pure (.returned v)
  | .classDecl decl => do
    declareClass eval decl
    pure .normal

theorem evaluate_succ (fuel : Nat) (e : Expr) :
    evaluate (fuel + 1) e = evaluateWith (evaluate fuel) (execute fuel) e := by
  cases e <;> rfl

theorem execute_succ (fuel : Nat) (s : Stmt) :
    execute (fuel + 1) s = executeWith (evaluate fuel) (execute fuel) s := by
  cases s with
  | varDecl name value => cases value <;> rfl
  | returnWith keyword value => cases value <;> rfl
  | _ => rfl

/-! ## Steps that do the same unless they run out of fuel -/

/-- The step `p` runs out of fuel or does the same as `q`, from every machine. -/
def Exec.Approximates {α : Type} (p q : Exec α) : Prop :=
  ∀ m, (∃ m', p m = .error .outOfFuel m') ∨ p m = q m

namespace Exec.Approximates

variable {α β : Type}

theorem refl (p : Exec α) : Approximates p p := fun _ => .inr rfl

theorem outOfFuel {p : Exec α} : Approximates (throw .outOfFuel) p := fun m => .inl ⟨m, rfl⟩

/-- A step that does not run out of fuel does what the other one does. -/
theorem eq_of_ne {p q : Exec α} (h : Approximates p q) {m : Machine}
    (hfuel : ∀ m', p m ≠ .error .outOfFuel m') : q m = p m := by
  rcases h m with ⟨m', hm⟩ | hm
  · exact absurd hm (hfuel m')
  · exact hm.symm

theorem bind {p p' : Exec α} {f f' : α → Exec β} (hp : Approximates p p')
    (hf : ∀ a, Approximates (f a) (f' a)) : Approximates (p >>= f) (p' >>= f') := by
  intro m
  simp only [Bind.bind, EStateM.bind]
  rcases hp m with ⟨m', hm⟩ | hm
  · exact .inl ⟨m', by rw [hm]⟩
  · rw [← hm]
    cases p m with
    | error halt m' => exact .inr rfl
    | ok a m' => exact hf a m'

/-- A step from the machine itself. -/
theorem get_bind {f f' : Machine → Exec β} (h : ∀ m, Approximates (f m) (f' m)) :
    Approximates (get >>= f) (get >>= f') := bind (refl get) h

theorem inChain {chain : Chain} {p p' : Exec α} (h : Approximates p p') :
    Approximates (inChain chain p) (inChain chain p') := by
  intro m
  simp only [Exec.inChain]
  rcases h { m with chain := chain } with ⟨m', hm⟩ | hm
  · exact .inl ⟨{ m' with chain := m.chain }, by rw [hm]⟩
  · exact .inr (by rw [hm])

theorem nested {p p' : Exec α} (h : Approximates p p') :
    Approximates (nested p) (nested p') := by
  intro m
  simp only [Exec.nested]
  rcases h { m with depth := m.depth + 1 } with ⟨m', hm⟩ | hm
  · exact .inl ⟨{ m' with depth := m'.depth - 1 }, by rw [hm]⟩
  · exact .inr (by rw [hm])

variable {eval eval' : Expr → Exec Value} {exec exec' : Stmt → Exec Completion}

theorem setProperty {object : Value} {name : Token} {value value' : Exec Value}
    (h : Approximates value value') :
    Approximates (setProperty object name value) (setProperty object name value') := by
  cases object with
  | instance_ i => exact bind h fun _ => refl _
  | class_ c => exact bind h fun _ => refl _
  | _ => exact refl _

theorem evaluateAll (heval : ∀ e, Approximates (eval e) (eval' e)) (es : List Expr) :
    Approximates (evaluateAll eval es) (evaluateAll eval' es) := by
  induction es with
  | nil => exact refl _
  | cons e es ih => exact bind (heval e) fun _ => bind ih fun _ => refl _

theorem executeAll (hexec : ∀ s, Approximates (exec s) (exec' s)) (ss : List Stmt) :
    Approximates (executeAll exec ss) (executeAll exec' ss) := by
  induction ss with
  | nil => exact refl _
  | cons s ss ih =>
    refine bind (hexec s) fun completion => ?_
    cases completion with
    | normal => exact ih
    | returned v => exact refl _

theorem executeInFrame (hexec : ∀ s, Approximates (exec s) (exec' s)) {frame : Frame}
    {chain : Chain} {body : List Stmt} :
    Approximates (executeInFrame exec frame chain body)
      (executeInFrame exec' frame chain body) :=
  bind (refl _) fun _ => inChain (executeAll hexec body)

theorem runClosure (hexec : ∀ s, Approximates (exec s) (exec' s)) {c : Closure}
    {arguments : List Value} :
    Approximates (runClosure exec c arguments) (runClosure exec' c arguments) :=
  bind (executeInFrame hexec) fun _ => refl _

theorem construct (hexec : ∀ s, Approximates (exec s) (exec' s)) {c : ClassId}
    {arguments : List Value} :
    Approximates (construct exec c arguments) (construct exec' c arguments) := by
  refine bind (refl _) fun i => get_bind fun m => ?_
  cases m.heap.initializer? c with
  | none => exact refl _
  | some init => exact bind (refl _) fun _ => bind (runClosure hexec) fun _ => refl _

theorem callValue (hexec : ∀ s, Approximates (exec s) (exec' s)) {callee : Value}
    {paren : Token} {arguments : List Value} :
    Approximates (callValue exec callee paren arguments)
      (callValue exec' callee paren arguments) := by
  refine get_bind fun m => ?_
  cases m.heap.callable? callee with
  | none => exact refl _
  | some f =>
    by_cases harity : arguments.length = m.heap.arity f
    · by_cases hdepth : maxCallDepth ≤ m.depth
      · simp only [hdepth, if_true]
        exact refl _
      · simp only [harity, hdepth, ne_eq, not_true_eq_false, if_false]
        cases f with
        | closure c => exact nested (runClosure hexec)
        | native f => exact nested (by cases f <;> exact refl _)
        | constructor c => exact nested (construct hexec)
    · simp only [harity, ne_eq, not_false_eq_true, if_true]
      exact refl _

theorem superclassOf (heval : ∀ e, Approximates (eval e) (eval' e)) {name : Token}
    {superclass : Option Expr} :
    Approximates (superclassOf eval name superclass) (superclassOf eval' name superclass) := by
  cases superclass with
  | none => exact refl _
  | some e => exact bind (heval e) fun _ => refl _

/-- A step of the recursion does the same if the parts do. -/
theorem evaluateWith (heval : ∀ e, Approximates (eval e) (eval' e))
    (hexec : ∀ s, Approximates (exec s) (exec' s)) (e : Expr) :
    Approximates (evaluateWith eval exec e) (evaluateWith eval' exec' e) := by
  cases e with
  | literal l => exact refl _
  | grouping inner => exact heval inner
  | unary op operand => exact bind (heval operand) fun _ => refl _
  | binary left op right => exact bind (heval left) fun _ => bind (heval right) fun _ => refl _
  | logical left op right =>
    refine bind (heval left) fun a => ?_
    cases shortCircuits op a with
    | true => exact refl _
    | false => exact heval right
  | conditional c a b =>
    refine bind (heval c) fun v => ?_
    cases v.isTruthy with
    | true => exact heval a
    | false => exact heval b
  | var id name => exact refl _
  | assign id name value => exact bind (heval value) fun _ => refl _
  | call callee paren arguments =>
    exact bind (heval callee) fun _ => bind (evaluateAll heval arguments) fun _ => callValue hexec
  | get object name => exact bind (heval object) fun _ => refl _
  | set object name value => exact bind (heval object) fun _ => setProperty (heval value)
  | thisRef id keyword => exact refl _
  | superRef id keyword method => exact refl _

/-- A step of the recursion does the same if the parts do. -/
theorem executeWith (heval : ∀ e, Approximates (eval e) (eval' e))
    (hexec : ∀ s, Approximates (exec s) (exec' s)) (s : Stmt) :
    Approximates (executeWith eval exec s) (executeWith eval' exec' s) := by
  cases s with
  | expression e => exact bind (heval e) fun _ => refl _
  | print e => exact bind (heval e) fun _ => refl _
  | varDecl name value =>
    cases value with
    | none => exact refl _
    | some e => exact bind (heval e) fun _ => refl _
  | block body => exact get_bind fun _ => executeInFrame hexec
  | ifThen c a =>
    refine bind (heval c) fun v => ?_
    cases v.isTruthy with
    | true => exact hexec a
    | false => exact refl _
  | ifElse c a b =>
    refine bind (heval c) fun v => ?_
    cases v.isTruthy with
    | true => exact hexec a
    | false => exact hexec b
  | whileLoop c body =>
    refine bind (heval c) fun v => ?_
    cases v.isTruthy with
    | false => exact refl _
    | true =>
      refine bind (hexec body) fun completion => ?_
      cases completion with
      | returned v => exact refl _
      | normal => exact hexec (.whileLoop c body)
  | funDecl decl => exact refl _
  | returnWith keyword value =>
    cases value with
    | none => exact refl _
    | some e => exact bind (heval e) fun _ => refl _
  | classDecl decl => exact bind (bind (superclassOf heval) fun _ => refl _) fun _ => refl _

end Exec.Approximates

/-! ## More fuel -/

/-- With more fuel, expressions and statements do the same unless they ran out of fuel. -/
theorem approximates_of_le {fuel fuel' : Nat} (h : fuel ≤ fuel') :
    (∀ e, Approximates (evaluate fuel e) (evaluate fuel' e)) ∧
      ∀ s, Approximates (execute fuel s) (execute fuel' s) := by
  induction fuel generalizing fuel' with
  | zero => exact ⟨fun _ => .outOfFuel, fun _ => .outOfFuel⟩
  | succ fuel ih =>
    obtain ⟨fuel', rfl⟩ : ∃ k, fuel' = k + 1 := ⟨fuel' - 1, by omega⟩
    obtain ⟨heval, hexec⟩ := ih (Nat.le_of_succ_le_succ h)
    simp only [evaluate_succ, execute_succ]
    exact ⟨.evaluateWith heval hexec, .executeWith heval hexec⟩

end Lox
