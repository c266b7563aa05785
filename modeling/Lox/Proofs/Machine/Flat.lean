import Lox.Proofs.Machine.Fuel

/-!
# Blocks without frames

Some blocks may be run flat: their statements are executed where the block stands, without a
frame of their own. Everything else is run as before.

If the blocks that hold the body and the increment of a `for` loop are run flat, the tree of the
loop does what the loop says: after the initializer, which is executed once and in a new frame,
each round tests the condition, executes the body and evaluates the increment.
-/

namespace Lox

open Exec

/-! ## Running some blocks flat -/

/-- Execute a statement whose parts are run in the given ways, and flat blocks without a frame. -/
def executeFlatWith (flat : List Stmt → Bool) (eval : Expr → Exec Value)
    (exec : Stmt → Exec Completion) : Stmt → Exec Completion
  | .block body => if flat body then executeAll exec body else executeWith eval exec (.block body)
  | s => executeWith eval exec s

mutual

/-- Evaluate an expression, with some blocks flat. -/
def evaluateFlat (flat : List Stmt → Bool) : Nat → Expr → Exec Value
  | 0, _ => throw .outOfFuel
  | fuel + 1, e => evaluateWith (evaluateFlat flat fuel) (executeFlat flat fuel) e

def executeFlat (flat : List Stmt → Bool) : Nat → Stmt → Exec Completion
  | 0, _ => throw .outOfFuel
  | fuel + 1, s => executeFlatWith flat (evaluateFlat flat fuel) (executeFlat flat fuel) s

end

section

variable {flat : List Stmt → Bool} {fuel fuel' : Nat}

/-- If no block is run flat, everything is run as before. -/
theorem evaluateFlat_executeFlat_eq (h : ∀ body, flat body = false) (fuel : Nat) :
    evaluateFlat flat fuel = evaluate fuel ∧ executeFlat flat fuel = execute fuel := by
  induction fuel with
  | zero => exact ⟨rfl, rfl⟩
  | succ fuel ih =>
    refine ⟨funext fun e => ?_, funext fun s => ?_⟩
    · rw [evaluateFlat, ih.1, ih.2, evaluate_succ]
    · rw [executeFlat, ih.1, ih.2, execute_succ]
      cases s with
      | block body => simp only [executeFlatWith, h, Bool.false_eq_true, if_false]
      | _ => rfl

/-- With more fuel, expressions and statements do the same unless they ran out of fuel. -/
theorem approximates_flat_of_le (h : fuel ≤ fuel') :
    (∀ e, Approximates (evaluateFlat flat fuel e) (evaluateFlat flat fuel' e)) ∧
      ∀ s, Approximates (executeFlat flat fuel s) (executeFlat flat fuel' s) := by
  induction fuel generalizing fuel' with
  | zero => exact ⟨fun _ => .outOfFuel, fun _ => .outOfFuel⟩
  | succ fuel ih =>
    obtain ⟨fuel', rfl⟩ : ∃ k, fuel' = k + 1 := ⟨fuel' - 1, by omega⟩
    obtain ⟨heval, hexec⟩ := ih (Nat.le_of_succ_le_succ h)
    refine ⟨Approximates.evaluateWith heval hexec, fun s => ?_⟩
    rw [executeFlat, executeFlat]
    cases s with
    | block body =>
      simp only [executeFlatWith]
      by_cases hflat : flat body = true
      · simp only [hflat, if_true]
        exact .executeAll hexec body
      · simp only [hflat, Bool.false_eq_true, if_false]
        exact .executeWith heval hexec _
    | _ =>
      simp only [executeFlatWith]
      exact .executeWith heval hexec _

end

/-! ## Loops, run directly -/

section

variable (eval : Expr → Exec Value) (exec : Stmt → Exec Completion)

/-- Test the condition of a loop. A condition that is missing counts as true. -/
def testCondition : Option Expr → Exec Bool
  | none => pure true
  | some c => do
    let v ← eval c
    pure v.isTruthy

/-- Evaluate the increment of a loop, if it has one. -/
def advance : Option Expr → Exec Unit
  | none => pure ()
  | some e => do
    let _ ← eval e
    pure ()

/-- A round of a loop: execute the body, and then evaluate the increment unless the body
returned. -/
def runRound (increment : Option Expr) (body : Stmt) : Exec Completion := do
  match ← exec body with
  | .returned v => pure (.returned v)
  | .normal => do
    advance eval increment
    pure .normal

/-- Fewer than `n` rounds of a loop, up to the first test that fails or the first `return`. -/
def runRounds (condition increment : Option Expr) (body : Stmt) : Nat → Exec Completion
  | 0 => throw .outOfFuel
  | n + 1 => do
    if ← testCondition eval condition then
      match ← runRound eval exec increment body with
      | .returned v => pure (.returned v)
      | .normal => runRounds condition increment body n
    else pure .normal

/-- A loop: the initializer, if there is one, is executed once and in a new frame, in which the
rounds follow. -/
def runFor (init : Option Stmt) (condition increment : Option Expr) (body : Stmt) (n : Nat) :
    Exec Completion :=
  match init with
  | none => runRounds eval exec condition increment body n
  | some s => do
    let m ← get
    let id ← withHeap fun h => h.newFrame ∅
    inChain (id :: m.chain) do
      match ← exec s with
      | .returned v => pure (.returned v)
      | .normal => runRounds eval exec condition increment body n

end

/-- What the tree of a loop repeats. -/
def Stmt.round (increment : Option Expr) (body : Stmt) : Stmt :=
  match increment with
  | some e => block [body, expression e]
  | none => body

/-- The tree of a loop behind its initializer. -/
def Stmt.rounds (condition increment : Option Expr) (body : Stmt) : Stmt :=
  whileLoop (condition.getD (.literal (.bool true))) (round increment body)

section

variable {flat : List Stmt → Bool} {fuel k n : Nat} {init : Option Stmt}
  {condition increment : Option Expr} {body : Stmt}

theorem approximates_testCondition (h : k ≤ fuel) (condition : Option Expr) :
    Approximates (evaluateFlat flat k (condition.getD (.literal (.bool true))) >>=
      fun v => pure v.isTruthy) (testCondition (evaluateFlat flat fuel) condition) := by
  cases condition with
  | some c => exact .bind ((approximates_flat_of_le h).1 c) fun _ => .refl _
  | none =>
    cases k with
    | zero => exact fun m => .inl ⟨m, rfl⟩
    | succ k => exact .refl _

theorem testCondition_approximates (h : fuel < k) (condition : Option Expr) :
    Approximates (testCondition (evaluateFlat flat fuel) condition)
      (evaluateFlat flat k (condition.getD (.literal (.bool true))) >>=
        fun v => pure v.isTruthy) := by
  cases condition with
  | some c => exact .bind ((approximates_flat_of_le (Nat.le_of_lt h)).1 c) fun _ => .refl _
  | none =>
    obtain ⟨k, rfl⟩ : ∃ j, k = j + 1 := ⟨k - 1, by omega⟩
    exact .refl _

theorem runRound_none {eval : Expr → Exec Value} {exec : Stmt → Exec Completion} :
    runRound eval exec none body = exec body := by
  funext m
  simp only [runRound, advance, Bind.bind, EStateM.bind]
  cases exec body m with
  | error halt m' => rfl
  | ok completion m' => cases completion <;> rfl

/-- A block that is run flat executes its statements where it stands. -/
theorem executeFlat_block {ss : List Stmt} (h : flat ss = true) :
    executeFlat flat (fuel + 1) (.block ss) = executeAll (executeFlat flat fuel) ss := by
  simp only [executeFlat, executeFlatWith, h, if_true]

/-- An increment, executed as a statement. -/
theorem executeAll_expression (e : Expr) :
    executeAll (executeFlat flat (fuel + 1)) [.expression e] =
      advance (evaluateFlat flat fuel) (some e) >>= fun _ => pure .normal := by
  simp only [executeAll, executeFlat, executeFlatWith, executeWith, advance, bind_assoc, pure_bind]

/-- The tree of a round does what the round says, unless it runs out of fuel. -/
theorem approximates_runRound
    (hround : ∀ e, increment = some e → flat [body, .expression e] = true) (h : k ≤ fuel) :
    Approximates (executeFlat flat k (.round increment body))
      (runRound (evaluateFlat flat fuel) (executeFlat flat fuel) increment body) := by
  cases increment with
  | none =>
    rw [runRound_none]
    exact (approximates_flat_of_le h).2 body
  | some e =>
    cases k with
    | zero => exact .outOfFuel
    | succ k =>
      rw [Stmt.round, executeFlat_block (hround e rfl)]
      refine .bind ((approximates_flat_of_le (by omega)).2 body) fun completion => ?_
      cases completion with
      | returned v => exact .refl _
      | normal =>
        cases k with
        | zero => exact fun m => .inl ⟨m, rfl⟩
        | succ k =>
          simp only [executeAll_expression]
          exact .bind (.bind ((approximates_flat_of_le (by omega)).1 e) fun _ => .refl _)
            fun _ => .refl _

/-- The tree of a round needs two amounts of fuel more than the round. -/
theorem runRound_approximates
    (hround : ∀ e, increment = some e → flat [body, .expression e] = true) (h : fuel + 2 ≤ k) :
    Approximates (runRound (evaluateFlat flat fuel) (executeFlat flat fuel) increment body)
      (executeFlat flat k (.round increment body)) := by
  cases increment with
  | none =>
    rw [runRound_none]
    exact (approximates_flat_of_le (by omega)).2 body
  | some e =>
    obtain ⟨k, rfl⟩ : ∃ j, k = j + 2 := ⟨k - 2, by omega⟩
    rw [Stmt.round, executeFlat_block (hround e rfl)]
    refine .bind ((approximates_flat_of_le (by omega)).2 body) fun completion => ?_
    cases completion with
    | returned v => exact .refl _
    | normal =>
      simp only [executeAll_expression]
      exact .bind (.bind ((approximates_flat_of_le (by omega)).1 e) fun _ => .refl _)
        fun _ => .refl _

/-- A loop with its test apart from what follows it. -/
theorem executeFlat_rounds :
    executeFlat flat (k + 1) (.rounds condition increment body) =
      (evaluateFlat flat k (condition.getD (.literal (.bool true))) >>=
        fun v => pure v.isTruthy) >>= fun test =>
          if test then do
            match ← executeFlat flat k (.round increment body) with
            | .returned v => pure (.returned v)
            | .normal => executeFlat flat k (.rounds condition increment body)
          else pure .normal := by
  rw [Stmt.rounds, bind_assoc]
  simp only [pure_bind]
  rfl

/-- The tree of a loop does what the rounds do, unless it runs out of fuel. -/
theorem approximates_runRounds
    (hround : ∀ e, increment = some e → flat [body, .expression e] = true) (h : k ≤ fuel)
    (hn : k ≤ n) :
    Approximates (executeFlat flat k (.rounds condition increment body))
      (runRounds (evaluateFlat flat fuel) (executeFlat flat fuel) condition increment body n) := by
  induction k generalizing n with
  | zero => exact .outOfFuel
  | succ k ih =>
    obtain ⟨n, rfl⟩ : ∃ j, n = j + 1 := ⟨n - 1, by omega⟩
    rw [executeFlat_rounds, runRounds]
    refine .bind (approximates_testCondition (by omega) condition) fun test => ?_
    cases test with
    | false => exact .refl _
    | true =>
      refine .bind (approximates_runRound hround (by omega)) fun completion => ?_
      cases completion with
      | returned v => exact .refl _
      | normal => exact ih (by omega) (by omega)

/-- The rounds do what the tree of the loop does, unless they run out of fuel. -/
theorem runRounds_approximates
    (hround : ∀ e, increment = some e → flat [body, .expression e] = true)
    (h : fuel + n + 2 ≤ k) :
    Approximates
      (runRounds (evaluateFlat flat fuel) (executeFlat flat fuel) condition increment body n)
      (executeFlat flat k (.rounds condition increment body)) := by
  induction n generalizing k with
  | zero => exact .outOfFuel
  | succ n ih =>
    obtain ⟨k, rfl⟩ : ∃ j, k = j + 1 := ⟨k - 1, by omega⟩
    rw [executeFlat_rounds, runRounds]
    refine .bind (testCondition_approximates (by omega) condition) fun test => ?_
    cases test with
    | false => exact .refl _
    | true =>
      refine .bind (runRound_approximates hround (by omega)) fun completion => ?_
      cases completion with
      | returned v => exact .refl _
      | normal => exact ih (by omega)

theorem Stmt.forLoop_eq : forLoop init condition increment body =
    match init with
    | some s => block [s, rounds condition increment body]
    | none => rounds condition increment body := by
  cases init <;> cases increment <;> rfl

/-- The last of several statements decides how they end. -/
theorem executeAll_singleton {exec : Stmt → Exec Completion} (s : Stmt) :
    executeAll exec [s] = exec s := by
  funext m
  simp only [executeAll, Bind.bind, EStateM.bind]
  cases exec s m with
  | error halt m' => rfl
  | ok completion m' => cases completion <;> rfl

/-- A block that has a frame of its own. -/
theorem executeFlat_framed {ss : List Stmt} (h : flat ss = false) :
    executeFlat flat (fuel + 1) (.block ss) =
      get >>= fun m => executeInFrame (executeFlat flat fuel) ∅ m.chain ss := by
  simp only [executeFlat, executeFlatWith, h, Bool.false_eq_true, if_false]
  rfl

/-- The tree of a loop does what the loop says, unless it runs out of fuel. -/
theorem approximates_runFor
    (hround : ∀ e, increment = some e → flat [body, .expression e] = true)
    (hinit : ∀ s, flat [s, .rounds condition increment body] = false) (h : k ≤ fuel) :
    Approximates (executeFlat flat k (.forLoop init condition increment body))
      (runFor (evaluateFlat flat fuel) (executeFlat flat fuel) init condition increment body
        fuel) := by
  rw [Stmt.forLoop_eq]
  cases init with
  | none => exact approximates_runRounds hround h h
  | some s =>
    cases k with
    | zero => exact .outOfFuel
    | succ k =>
      simp only [executeFlat_framed (hinit s), runFor]
      refine .get_bind fun m => .bind (.refl _) fun id => .inChain ?_
      refine .bind ((approximates_flat_of_le (by omega)).2 s) fun completion => ?_
      cases completion with
      | returned v => exact .refl _
      | normal =>
        simp only [executeAll_singleton]
        exact approximates_runRounds hround (by omega) (by omega)

/-- A loop does what its tree does, unless it runs out of fuel. -/
theorem runFor_approximates
    (hround : ∀ e, increment = some e → flat [body, .expression e] = true)
    (hinit : ∀ s, flat [s, .rounds condition increment body] = false) (h : fuel + n + 3 ≤ k) :
    Approximates
      (runFor (evaluateFlat flat fuel) (executeFlat flat fuel) init condition increment body n)
      (executeFlat flat k (.forLoop init condition increment body)) := by
  rw [Stmt.forLoop_eq]
  cases init with
  | none => exact runRounds_approximates hround (by omega)
  | some s =>
    obtain ⟨k, rfl⟩ : ∃ j, k = j + 1 := ⟨k - 1, by omega⟩
    simp only [executeFlat_framed (hinit s), runFor]
    refine .get_bind fun m => .bind (.refl _) fun id => .inChain ?_
    refine .bind ((approximates_flat_of_le (by omega)).2 s) fun completion => ?_
    cases completion with
    | returned v => exact .refl _
    | normal =>
      simp only [executeAll_singleton]
      exact runRounds_approximates hround (by omega)

end

end Lox
