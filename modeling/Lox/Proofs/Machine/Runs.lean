import Lox.Proofs.Machine.Keeping
import Lox.Proofs.Scope.Rules

/-!
# Runs and the runs inside them

A run is a task, such as an expression to evaluate or a value to call, with the machine that it
starts on. A run begins other runs: those of its parts, each on the machine that the parts before it
have left, and only if it comes to them. At any moment some runs are active, each of which was begun
by the one around it and has not ended yet. The runs that a run begins are all that it runs: if they
give the same with more fuel, so does the run.
-/

namespace Lox

/-- What the evaluator may be asked to do. -/
inductive Task where
  | evaluate (e : Expr)
  | evaluateAll (es : List Expr)
  | execute (s : Stmt)
  | executeAll (ss : List Stmt)
  /-- Statements that are executed in a chain of their own. -/
  | block (chain : Chain) (body : List Stmt)
  | call (callee : Value) (paren : Token) (arguments : List Value)
  /-- What a call does once it is allowed. -/
  | invoke (f : Callable) (arguments : List Value)
  | closure (c : Closure) (arguments : List Value)
  | program (ss : List Stmt)

/-- What a task gives. -/
inductive Answer where
  | value (v : Value)
  | values (vs : List Value)
  | completion (c : Completion)
  | done

/-- What doing a task does. -/
def Task.exec (fuel : Nat) : Task → Exec Answer
  | evaluate e => .value <$> Lox.evaluate fuel e
  | evaluateAll es => .values <$> Lox.evaluateAll (Lox.evaluate fuel) es
  | execute s => .completion <$> Lox.execute fuel s
  | executeAll ss => .completion <$> Lox.executeAll (Lox.execute fuel) ss
  | block chain body =>
    .completion <$> Exec.inChain chain (Lox.executeAll (Lox.execute fuel) body)
  | call callee paren arguments => .value <$> callValue (Lox.execute fuel) callee paren arguments
  | invoke f arguments => .value <$> Lox.invoke (Lox.execute fuel) arguments f
  | closure c arguments => .value <$> runClosure (Lox.execute fuel) c arguments
  | program ss => (fun _ => .done) <$> interpret fuel ss

/-- A task with the fuel for it and the machine that it starts on. -/
structure Run where
  fuel : Nat
  task : Task
  machine : Machine

/-- The part of an expression that is evaluated first. -/
def Expr.first? : Expr → Option Expr
  | .grouping e | .unary _ e | .binary e _ _ | .logical e _ _ | .conditional e _ _
  | .assign _ _ e | .call e _ _ | .get e _ | .set e _ _ => some e
  | .literal _ | .var _ _ | .thisRef _ _ | .superRef _ _ _ => none

/-- A value that programs may store fields in. -/
def Value.hasFields : Value → Bool
  | .instance_ _ | .class_ _ => true
  | _ => false

namespace Run

def result (r : Run) : EStateM.Result Halt Machine Answer := r.task.exec r.fuel r.machine

def after (r : Run) : Machine := (r.task.exec r.fuel).after r.machine

/-- A run begins another one, as a direct part of itself. -/
inductive Begins : Run → Run → Prop
  -- Expressions.
  | first {fuel e e' m} (h : e.first? = some e') :
    Begins ⟨fuel + 1, .evaluate e, m⟩ ⟨fuel, .evaluate e', m⟩
  | binaryRight {fuel left op right a m m'} (h : evaluate fuel left m = .ok a m') :
    Begins ⟨fuel + 1, .evaluate (.binary left op right), m⟩ ⟨fuel, .evaluate right, m'⟩
  | logicalRight {fuel left op right a m m'} (h : evaluate fuel left m = .ok a m')
      (ha : shortCircuits op a = false) :
    Begins ⟨fuel + 1, .evaluate (.logical left op right), m⟩ ⟨fuel, .evaluate right, m'⟩
  | thenValue {fuel c a b v m m'} (h : evaluate fuel c m = .ok v m') (hv : v.isTruthy = true) :
    Begins ⟨fuel + 1, .evaluate (.conditional c a b), m⟩ ⟨fuel, .evaluate a, m'⟩
  | elseValue {fuel c a b v m m'} (h : evaluate fuel c m = .ok v m') (hv : v.isTruthy = false) :
    Begins ⟨fuel + 1, .evaluate (.conditional c a b), m⟩ ⟨fuel, .evaluate b, m'⟩
  | fieldValue {fuel object name value v m m'} (h : evaluate fuel object m = .ok v m')
      (hv : v.hasFields = true) :
    Begins ⟨fuel + 1, .evaluate (.set object name value), m⟩ ⟨fuel, .evaluate value, m'⟩
  | arguments {fuel callee paren es f m m'} (h : evaluate fuel callee m = .ok f m') :
    Begins ⟨fuel + 1, .evaluate (.call callee paren es), m⟩ ⟨fuel, .evaluateAll es, m'⟩
  | call {fuel callee paren es f vs m m' m''} (h : evaluate fuel callee m = .ok f m')
      (hvs : evaluateAll (evaluate fuel) es m' = .ok vs m'') :
    Begins ⟨fuel + 1, .evaluate (.call callee paren es), m⟩ ⟨fuel, .call f paren vs, m''⟩
  | argument {fuel e es m} : Begins ⟨fuel, .evaluateAll (e :: es), m⟩ ⟨fuel, .evaluate e, m⟩
  | laterArguments {fuel e es v m m'} (h : evaluate fuel e m = .ok v m') :
    Begins ⟨fuel, .evaluateAll (e :: es), m⟩ ⟨fuel, .evaluateAll es, m'⟩
  -- Statements. No statement has more than one expression, which it evaluates first.
  | expression {fuel s e m} (h : e ∈ s.expressions) :
    Begins ⟨fuel + 1, .execute s, m⟩ ⟨fuel, .evaluate e, m⟩
  | thenOnly {fuel c a v m m'} (h : evaluate fuel c m = .ok v m') (hv : v.isTruthy = true) :
    Begins ⟨fuel + 1, .execute (.ifThen c a), m⟩ ⟨fuel, .execute a, m'⟩
  | thenBranch {fuel c a b v m m'} (h : evaluate fuel c m = .ok v m') (hv : v.isTruthy = true) :
    Begins ⟨fuel + 1, .execute (.ifElse c a b), m⟩ ⟨fuel, .execute a, m'⟩
  | elseBranch {fuel c a b v m m'} (h : evaluate fuel c m = .ok v m') (hv : v.isTruthy = false) :
    Begins ⟨fuel + 1, .execute (.ifElse c a b), m⟩ ⟨fuel, .execute b, m'⟩
  | round {fuel c body v m m'} (h : evaluate fuel c m = .ok v m') (hv : v.isTruthy = true) :
    Begins ⟨fuel + 1, .execute (.whileLoop c body), m⟩ ⟨fuel, .execute body, m'⟩
  | laterRounds {fuel c body v m m' m''} (h : evaluate fuel c m = .ok v m')
      (hv : v.isTruthy = true) (hbody : execute fuel body m' = .ok .normal m'') :
    Begins ⟨fuel + 1, .execute (.whileLoop c body), m⟩
      ⟨fuel, .execute (.whileLoop c body), m''⟩
  | block {fuel body m} :
    Begins ⟨fuel + 1, .execute (.block body), m⟩
      ⟨fuel, .block (m.heap.frames.next :: m.chain) body,
        { m with heap := (m.heap.newFrame ∅).2 }⟩
  | body {fuel chain ss m} :
    Begins ⟨fuel, .block chain ss, m⟩ ⟨fuel, .executeAll ss, { m with chain := chain }⟩
  | statement {fuel s ss m} : Begins ⟨fuel, .executeAll (s :: ss), m⟩ ⟨fuel, .execute s, m⟩
  | laterStatements {fuel s ss m m'} (h : execute fuel s m = .ok .normal m') :
    Begins ⟨fuel, .executeAll (s :: ss), m⟩ ⟨fuel, .executeAll ss, m'⟩
  -- Calls.
  | invoke {fuel callee paren vs f m} (hf : m.heap.callable? callee = some f)
      (hvs : vs.length = m.heap.arity f) (hdepth : m.depth < maxCallDepth) :
    Begins ⟨fuel, .call callee paren vs, m⟩
      ⟨fuel, .invoke f vs, { m with depth := m.depth + 1 }⟩
  | closure {fuel c vs m} : Begins ⟨fuel, .invoke (.closure c) vs, m⟩ ⟨fuel, .closure c vs, m⟩
  | initializer {fuel c init i bound vs m heap heap'}
      (hi : m.heap.newInstance c = (i, heap)) (hinit : heap.initializer? c = some init)
      (hbound : heap.bindReceiver init (.instance_ i) = (bound, heap')) :
    Begins ⟨fuel, .invoke (.constructor c) vs, m⟩
      ⟨fuel, .closure bound vs, { m with heap := heap' }⟩
  | closureBody {fuel c vs m} :
    Begins ⟨fuel, .closure c vs, m⟩
      ⟨fuel, .block (m.heap.frames.next :: c.chain) c.decl.body,
        { m with heap := (m.heap.newFrame (callFrame c.decl.params vs)).2 }⟩
  -- Programs.
  | topLevel {fuel s ss m} : Begins ⟨fuel, .program (s :: ss), m⟩ ⟨fuel, .execute s, m⟩
  | laterProgram {fuel s ss c m m'} (h : execute fuel s m = .ok c m') :
    Begins ⟨fuel, .program (s :: ss), m⟩ ⟨fuel, .program ss, m'⟩

/-- The runs that are active at some moment of a run, the innermost one first. -/
inductive Active (start : Run) : List Run → Prop
  | start : Active start [start]
  | begin {r r' : Run} {outer : List Run} (h : Active start (r :: outer)) (hbegins : r.Begins r') :
    Active start (r' :: r :: outer)

/-- What holds at the start, and goes over to each run that is begun, holds at each moment. -/
@[elab_as_elim]
theorem Active.stack_induction {start : Run}
    {motive : (r : Run) → (outer : List Run) → Active start (r :: outer) → Prop}
    (start : motive start [] .start)
    (begin : ∀ {q r : Run} {outer : List Run} (h : Active _ (q :: outer)) (hbegins : q.Begins r),
      motive q outer h → motive r (q :: outer) (h.begin hbegins))
    {r : Run} {outer : List Run} (h : Active _ (r :: outer)) : motive r outer h := by
  induction outer generalizing r with
  | nil =>
    cases h
    exact start
  | cons q outer ih =>
    cases h with
    | begin h hbegins => exact begin h hbegins (ih h)

/-- The runs around one that is active were active when it began. -/
theorem Active.of_append {start call : Run} {inner rest : List Run}
    (h : Active start (inner ++ call :: rest)) : Active start (call :: rest) := by
  induction inner with
  | nil => exact h
  | cons r inner ih =>
    cases inner with
    | nil =>
      cases h with
      | begin h _ => exact h
    | cons r' inner =>
      cases h with
      | begin h _ => exact ih h

end Run

/-! ## Results -/

namespace Exec

variable {α β : Type} {p q : Exec α} {m : Machine}

theorem bind_of_ok {f : α → Exec β} {a : α} {m' : Machine} (h : p m = .ok a m') :
    (p >>= f) m = f a m' := by
  simp only [Bind.bind, EStateM.bind, h]

theorem bind_of_error {f : α → Exec β} {halt : Halt} {m' : Machine} (h : p m = .error halt m') :
    (p >>= f) m = .error halt m' := by
  simp only [Bind.bind, EStateM.bind, h]

theorem bind_congr {f g : α → Exec β} (hp : q m = p m)
    (hf : ∀ a m', p m = .ok a m' → g a m' = f a m') : (q >>= g) m = (p >>= f) m := by
  simp only [Bind.bind, EStateM.bind, hp]
  cases h : p m with
  | ok a m' => exact hf a m' h
  | error halt m' => rfl

theorem map_eq_error_iff {f : α → β} {halt : Halt} {m' : Machine} :
    (f <$> p) m = .error halt m' ↔ p m = .error halt m' := by
  simp only [Functor.map, EStateM.map]
  cases p m <;> simp

theorem map_inj {f : α → β} (hf : ∀ a b, f a = f b → a = b) (h : (f <$> q) m = (f <$> p) m) :
    q m = p m := by
  simp only [Functor.map, EStateM.map] at h
  cases hp : p m <;> cases hq : q m <;> simp_all
  exact hf _ _ h.1

end Exec

namespace Run

open Exec

/-- The run has no fuel for the first step of its task. -/
def Starved (r : Run) : Prop :=
  r.fuel = 0 ∧ ((∃ e, r.task = .evaluate e) ∨ ∃ s, r.task = .execute s)

def more (r : Run) (k : Nat) : Run := { r with fuel := r.fuel + k }

variable {k fuel : Nat} {m : Machine}

/-- The runs that a run begins give the same with more fuel. -/
def Steady (k : Nat) (r : Run) : Prop := ∀ r', r.Begins r' → (r'.more k).result = r'.result

theorem Steady.evaluate {r : Run} {e : Expr} (h : Steady k r)
    (hb : r.Begins ⟨fuel, .evaluate e, m⟩) :
    Lox.evaluate (fuel + k) e m = Lox.evaluate fuel e m :=
  map_inj (fun _ _ => Answer.value.inj) (h _ hb)

theorem Steady.execute {r : Run} {s : Stmt} (h : Steady k r) (hb : r.Begins ⟨fuel, .execute s, m⟩) :
    Lox.execute (fuel + k) s m = Lox.execute fuel s m :=
  map_inj (fun _ _ => Answer.completion.inj) (h _ hb)

/-- Evaluating depends on fuel only through the runs that it begins. -/
theorem evaluate_more {e : Expr} (h : Steady k ⟨fuel + 1, .evaluate e, m⟩) :
    Lox.evaluate (fuel + k + 1) e m = Lox.evaluate (fuel + 1) e m := by
  cases e with
  | literal | var | thisRef | superRef => rfl
  | grouping => exact h.evaluate (.first rfl)
  | unary | assign | get => exact bind_congr (h.evaluate (.first rfl)) fun _ _ _ => rfl
  | binary =>
    exact bind_congr (h.evaluate (.first rfl)) fun _ _ ha =>
      bind_congr (h.evaluate (.binaryRight ha)) fun _ _ _ => rfl
  | logical _ op =>
    refine bind_congr (h.evaluate (.first rfl)) fun a _ ha => ?_
    cases hs : shortCircuits op a with
    | true => rfl
    | false => exact h.evaluate (.logicalRight ha hs)
  | conditional =>
    refine bind_congr (h.evaluate (.first rfl)) fun v _ hv => ?_
    cases ht : v.isTruthy with
    | true => exact h.evaluate (.thenValue hv ht)
    | false => exact h.evaluate (.elseValue hv ht)
  | call =>
    exact bind_congr (h.evaluate (.first rfl)) fun _ _ hf =>
      bind_congr (map_inj (fun _ _ => Answer.values.inj) (h _ (.arguments hf))) fun _ _ hvs =>
        map_inj (fun _ _ => Answer.value.inj) (h _ (.call hf hvs))
  | set =>
    refine bind_congr (h.evaluate (.first rfl)) fun v _ hv => ?_
    cases v with
    | instance_ | class_ => exact bind_congr (h.evaluate (.fieldValue hv rfl)) fun _ _ _ => rfl
    | _ => rfl

theorem execute_more {s : Stmt} (h : Steady k ⟨fuel + 1, .execute s, m⟩) :
    Lox.execute (fuel + k + 1) s m = Lox.execute (fuel + 1) s m := by
  have hfirst {e : Expr} (he : e ∈ s.expressions) := h.evaluate (.expression he)
  cases s with
  | funDecl => rfl
  | expression | print => exact bind_congr (hfirst (List.mem_singleton_self _)) fun _ _ _ => rfl
  | varDecl _ o | returnWith _ o =>
    cases o with
    | none => rfl
    | some e => exact bind_congr (hfirst (List.mem_singleton_self e)) fun _ _ _ => rfl
  | block => exact map_inj (fun _ _ => Answer.completion.inj) (h _ .block)
  | ifThen =>
    refine bind_congr (hfirst (List.mem_singleton_self _)) fun v _ hv => ?_
    cases ht : v.isTruthy with
    | true => exact h.execute (.thenOnly hv ht)
    | false => rfl
  | ifElse =>
    refine bind_congr (hfirst (List.mem_singleton_self _)) fun v _ hv => ?_
    cases ht : v.isTruthy with
    | true => exact h.execute (.thenBranch hv ht)
    | false => exact h.execute (.elseBranch hv ht)
  | whileLoop =>
    refine bind_congr (hfirst (List.mem_singleton_self _)) fun v _ hv => ?_
    cases ht : v.isTruthy with
    | false => rfl
    | true =>
      refine bind_congr (h.execute (.round hv ht)) fun c _ hc => ?_
      cases c with
      | normal => exact h.execute (.laterRounds hv ht hc)
      | returned => rfl
  | classDecl decl =>
    obtain ⟨name, superclass, methods, statics⟩ := decl
    refine bind_congr (bind_congr ?_ fun _ _ _ => rfl) fun _ _ _ => rfl
    cases superclass with
    | none => rfl
    | some e => exact bind_congr (hfirst (List.mem_singleton_self e)) fun _ _ _ => rfl

/-- The result of a run comes from those of the runs that it begins: if these give the same with
more fuel, so does the run. -/
theorem result_more {r : Run} (hr : ¬ r.Starved) (h : Steady k r) :
    (r.more k).result = r.result := by
  obtain ⟨fuel, task, m⟩ := r
  have hmap {α : Type} {p q : Exec α} (f : α → Answer) (h : q m = p m) :
      (f <$> q) m = (f <$> p) m := bind_congr h fun _ _ _ => rfl
  cases task with
  | evaluate e =>
    cases fuel with
    | zero => exact absurd ⟨rfl, .inl ⟨e, rfl⟩⟩ hr
    | succ fuel =>
      change (Task.exec (fuel + 1 + k) _) m = _
      rw [Nat.add_right_comm]
      exact hmap _ (evaluate_more h)
  | execute s =>
    cases fuel with
    | zero => exact absurd ⟨rfl, .inr ⟨s, rfl⟩⟩ hr
    | succ fuel =>
      change (Task.exec (fuel + 1 + k) _) m = _
      rw [Nat.add_right_comm]
      exact hmap _ (execute_more h)
  | evaluateAll es =>
    refine hmap _ ?_
    cases es with
    | nil => rfl
    | cons =>
      exact bind_congr (h.evaluate .argument) fun _ _ hv =>
        bind_congr (map_inj (fun _ _ => Answer.values.inj) (h _ (.laterArguments hv)))
          fun _ _ _ => rfl
  | executeAll ss =>
    refine hmap _ ?_
    cases ss with
    | nil => rfl
    | cons =>
      refine bind_congr (h.execute .statement) fun c _ hc => ?_
      cases c with
      | normal => exact map_inj (fun _ _ => Answer.completion.inj) (h _ (.laterStatements hc))
      | returned => rfl
  | block chain body =>
    refine hmap _ ?_
    have hbody := map_inj (fun _ _ => Answer.completion.inj) (h _ .body)
    simp only [inChain, more] at hbody ⊢
    rw [hbody]
  | call callee paren vs =>
    refine hmap _ ?_
    refine bind_congr (p := get) (q := get) rfl fun m' _ hm => ?_
    cases hm
    cases hf : m.heap.callable? callee with
    | none => rfl
    | some f =>
      simp only
      split
      · rfl
      split
      · rfl
      · next hvs hdepth =>
        have hbody := map_inj (fun _ _ => Answer.value.inj)
          (h _ (.invoke hf (Decidable.not_not.1 hvs) (Nat.lt_of_not_le hdepth)))
        simp only [nested, more] at hbody ⊢
        rw [hbody]
  | invoke f vs =>
    refine hmap _ ?_
    cases f with
    | closure c => exact map_inj (fun _ _ => Answer.value.inj) (h _ .closure)
    | native f => cases f <;> rfl
    | constructor c =>
      simp only [Lox.invoke, construct, withHeap_bind_apply, get_bind_apply]
      cases hinit : (m.heap.newInstance c).2.initializer? c with
      | none => rfl
      | some init =>
        simp only [withHeap_bind_apply]
        exact bind_congr (map_inj (fun _ _ => Answer.value.inj) (h _ (.initializer rfl hinit rfl)))
          fun _ _ _ => rfl
  | closure c vs =>
    exact hmap _ (bind_congr (map_inj (fun _ _ => Answer.completion.inj) (h _ .closureBody))
      fun _ _ _ => rfl)
  | program ss =>
    refine hmap _ ?_
    cases ss with
    | nil => rfl
    | cons =>
      exact bind_congr (h.execute .topLevel) fun _ _ hc =>
        map_inj (fun _ _ _ => rfl) (h _ (.laterProgram hc))

end Run

end Lox
