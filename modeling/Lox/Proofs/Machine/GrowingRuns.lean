import Lox.Proofs.Machine.Growth

/-!
# Runs let the heap grow

A run that is begun starts on a heap that has grown from that of the run around it, and what it adds
to the heap is still there when the run around it ends. So at each moment of a run of orderly code,
the heap lies between that at the start and that at the end.
-/

namespace Lox

open Exec

/-! ## Calls -/

/-- An instance of a class with an initializer is made. -/
theorem construct_of_initializer? {exec : Stmt → Exec Completion} {c : ClassId} {init : Closure}
    {m : Machine} (vs : List Value) (hinit : m.heap.initializer? c = some init) :
    construct exec c vs m =
      (do
        let _ ← runClosure exec { init with chain := m.heap.frames.next :: init.chain } vs
        pure (Value.instance_ m.heap.instances.size))
        { m with heap :=
          ((m.heap.newInstance c).2.bindReceiver init (.instance_ m.heap.instances.size)).2 } := by
  have hsame : (m.heap.newInstance c).2.initializer? c = some init := hinit
  rw [construct, withHeap_bind_apply, get_bind_apply]
  simp only [hsame]
  rfl

/-! ## Tasks -/

/-- The machine that a task leaves. -/
def Task.leaves (fuel : Nat) : Task → Machine → Machine
  | evaluate e => (Lox.evaluate fuel e).after
  | evaluateAll es => (Lox.evaluateAll (Lox.evaluate fuel) es).after
  | execute s => (Lox.execute fuel s).after
  | executeAll ss => (Lox.executeAll (Lox.execute fuel) ss).after
  | block chain body => (inChain chain (Lox.executeAll (Lox.execute fuel) body)).after
  | call callee paren vs => (callValue (Lox.execute fuel) callee paren vs).after
  | invoke f vs => (Lox.invoke (Lox.execute fuel) vs f).after
  | closure c vs => (runClosure (Lox.execute fuel) c vs).after
  | program ss => (interpret fuel ss).after

theorem Run.after_eq (r : Run) : r.after = r.task.leaves r.fuel r.machine := by
  obtain ⟨fuel, task, m⟩ := r
  cases task with
  | _ => exact after_map _ _ m

theorem Task.Orderly.above_leaves {task : Task} (h : task.Orderly) {K : Heap} (fuel : Nat)
    {m : Machine} (hm : m.Above K) : (task.leaves fuel m).Above K := by
  obtain ⟨heval, hexec⟩ := keepsAbove K fuel
  have hall : ∀ {ss : List Stmt}, Stmts.Orderly ss →
      KeepsAbove K (Lox.executeAll (Lox.execute fuel) ss) := fun hss =>
    Machine.Stable.keeps_executeAll fun s hs => hexec s (hss.of_mem s hs)
  cases task with
  | evaluate e => exact heval e h m hm
  | evaluateAll es =>
    have hes := Exprs.wellFormed_iff.1 h
    exact Machine.Stable.keeps_evaluateAll (fun e he => heval e (hes e he)) m hm
  | execute s => exact hexec s h m hm
  | executeAll ss => exact hall h m hm
  | block chain ss => exact (hall h).inChain (fun _ _ hm => hm) chain m hm
  | call callee paren vs => exact hexec.callValue callee paren vs m hm
  | invoke f vs => exact hexec.invoke vs h m hm
  | closure c vs => exact hexec.runClosure h vs m hm
  | program ss => exact keepsAbove_interpret K fuel h m hm

namespace Run

variable {r r' : Run}

/-- A run lets the heap grow. -/
theorem Orderly.above_after (h : r.Orderly) : r.after.Above r.machine.heap := by
  rw [after_eq]
  exact h.2.above_leaves r.fuel ⟨.refl _, h.1⟩

/-! ## A run and one that it begins -/

/-- A run that is begun has to do with orderly code, and its heap has grown from that of the run
that begins it. -/
theorem above_of_begins (h : r.Begins r') (hr : r.Orderly) :
    r'.machine.Above r.machine.heap ∧ r'.task.Orderly := by
  obtain ⟨hm, htask⟩ := hr
  have hstart : r.machine.Above r.machine.heap := ⟨.refl _, hm⟩
  have heval {K fuel e v m m'} (he : Expr.WellFormed e) (hm : Machine.Above K m)
      (h : evaluate fuel e m = .ok v m') : m'.Above K := ((keepsAbove K fuel).1 e he).of_ok hm h
  have hexec {K fuel s c m m'} (hs : Stmt.Orderly s) (hm : Machine.Above K m)
      (h : execute fuel s m = .ok c m') : m'.Above K := ((keepsAbove K fuel).2 s hs).of_ok hm h
  cases h with
  | first h => exact ⟨hstart, htask.first h⟩
  | binaryRight h => exact ⟨heval htask.2.1 hstart h, htask.2.2⟩
  | logicalRight h => exact ⟨heval htask.1 hstart h, htask.2⟩
  | thenValue h => exact ⟨heval htask.1 hstart h, htask.2.1⟩
  | elseValue h => exact ⟨heval htask.1 hstart h, htask.2.2⟩
  | fieldValue h => exact ⟨heval htask.1 hstart h, htask.2⟩
  | arguments h => exact ⟨heval htask.1 hstart h, htask.2⟩
  | @call fuel _ _ es _ _ m _ _ h hvs =>
    have hes := Exprs.wellFormed_iff.1 htask.2
    have hall := Machine.Stable.keeps_evaluateAll
      fun e he => (keepsAbove m.heap fuel).1 e (hes e he)
    exact ⟨hall.of_ok (heval htask.1 hstart h) hvs, trivial⟩
  | argument => exact ⟨hstart, htask.1⟩
  | laterArguments h => exact ⟨heval htask.1 hstart h, htask.2⟩
  | expression h => exact ⟨hstart, htask.1.expressions _ h⟩
  | thenOnly h | thenBranch h | round h =>
    exact ⟨heval htask.1.1 hstart h, htask.branch List.mem_cons_self⟩
  | elseBranch h =>
    exact ⟨heval htask.1.1 hstart h, htask.branch (List.mem_cons_of_mem _ List.mem_cons_self)⟩
  | laterRounds h _ hbody =>
    exact ⟨hexec (htask.branch List.mem_cons_self) (heval htask.1.1 hstart h) hbody, htask⟩
  | block => exact ⟨hstart.frames (Frames.extends_push _ _), htask.block⟩
  | body => exact ⟨hstart, htask⟩
  | statement => exact ⟨hstart, htask.head⟩
  | laterStatements h => exact ⟨hexec htask.head hstart h, htask.tail⟩
  | invoke hf => exact ⟨hstart, hm.callable? hf⟩
  | closure => exact ⟨hstart, htask _ rfl⟩
  | @initializer _ c _ _ _ _ m _ _ hi hinit hbound =>
    cases hi
    cases hbound
    have hmade : Machine.Above m.heap { m with heap := (m.heap.newInstance c).2 } :=
      hstart.change (Heap.grows_newInstance _ c) ⟨hm.functions, hm.methods⟩
    exact ⟨hmade.frames (Frames.extends_push _ _), (hmade.2.findMethod? hinit).1⟩
  | closureBody => exact ⟨hstart.frames (Frames.extends_push _ _), htask.body⟩
  | topLevel => exact ⟨hstart, htask.head⟩
  | laterProgram h => exact ⟨hexec htask.head hstart h, htask.tail⟩

theorem orderly_of_begins (h : r.Begins r') (hr : r.Orderly) : r'.Orderly :=
  ⟨(above_of_begins h hr).1.2, (above_of_begins h hr).2⟩

/-- What a run inside a run has added to the heap is there when the run around it ends. -/
theorem after_above_of_begins {K : Heap} (h : r.Begins r') (hr : r.Orderly)
    (hK : r'.after.Above K) : r.after.Above K := by
  obtain ⟨-, htask⟩ := hr
  rw [after_eq] at hK ⊢
  have heval {fuel e} (he : Expr.WellFormed e) : KeepsAbove K (evaluate fuel e) :=
    (keepsAbove K fuel).1 e he
  have hexec {fuel} : ExecutesAbove K (execute fuel) := (keepsAbove K fuel).2
  cases h with
  | first h => exact above_after_first (fun _ he => heval he) hexec htask h hK
  | binaryRight h =>
    exact holds_after_bind h (Keeps.after_bind (fun b => keeps_ofExcept _ _) hK)
  | thenValue h hv | thenOnly h hv | thenBranch h hv =>
    refine holds_after_bind h ?_
    rw [if_pos hv]
    exact hK
  | logicalRight h hv | elseValue h hv | elseBranch h hv =>
    refine holds_after_bind h ?_
    rw [hv]
    exact hK
  | @fieldValue _ _ _ _ v _ _ h hv =>
    refine holds_after_bind h ?_
    cases v with
    | instance_ i =>
      exact Keeps.after_bind (fun v m hm => hm.change (Heap.grows_setField _ i _ v)
        ⟨hm.2.functions, hm.2.methods⟩) hK
    | class_ c =>
      exact Keeps.after_bind (fun v m hm => hm.change (Heap.grows_setClassField _ c _ v)
        (hm.2.setClassField c _ v)) hK
    | _ => cases hv
  | arguments h =>
    exact holds_after_bind h (Keeps.after_bind (fun vs => hexec.callValue _ _ vs) hK)
  | call h hvs => exact holds_after_bind h (holds_after_bind hvs hK)
  | argument =>
    have hes := Exprs.wellFormed_iff.1 htask.2
    exact Keeps.after_bind (fun v =>
      (Machine.Stable.keeps_evaluateAll fun e he => heval (hes e he)).bind
      fun vs => keeps_pure _) hK
  | laterArguments h => exact holds_after_bind h (Keeps.after_bind (fun vs => keeps_pure _) hK)
  | expression h => exact above_after_expression hexec htask h hK
  | round h hv =>
    refine holds_after_bind h ?_
    rw [if_pos hv]
    refine Keeps.after_bind (fun completion => ?_) hK
    cases completion with
    | returned v => exact keeps_pure _
    | normal => exact hexec _ htask
  | laterRounds h hv hbody =>
    refine holds_after_bind h ?_
    rw [if_pos hv]
    exact holds_after_bind hbody hK
  | block | closure => exact hK
  | body =>
    refine (congrArg (Machine.Above K) (after_inChain _ _ _)).mpr ?_
    exact hK
  | statement =>
    refine Keeps.after_bind (fun completion => ?_) hK
    cases completion with
    | returned v => exact keeps_pure _
    | normal =>
      exact Machine.Stable.keeps_executeAll fun s hs => hexec s (htask.tail.of_mem s hs)
  | laterStatements h | laterProgram h => exact holds_after_bind h hK
  | @invoke fuel callee paren vs f m hf hvs hdepth =>
    change ((callValue (execute fuel) callee paren vs).after m).Above K
    rw [Exec.after, callValue_of_lt _ paren hf hvs hdepth]
    refine (congrArg (Machine.Above K) (after_nested _ _)).mpr ?_
    exact hK
  | @initializer fuel c _ _ _ vs m _ _ hi hinit hbound =>
    cases hi
    cases hbound
    change ((construct (execute fuel) c vs).after m).Above K
    rw [Exec.after, construct_of_initializer? _ hinit]
    exact Keeps.after_bind (fun _ => keeps_pure _) hK
  | closureBody => exact Machine.Stable.after_runClosure hK
  | topLevel => exact Keeps.after_bind (fun _ => keepsAbove_interpret K _ htask.tail) hK

/-! ## A run and those inside it -/

/-- At each moment of a run of orderly code, the innermost run has to do with orderly code too. The
heap has grown since the start, and it will grow up to the end. -/
theorem grows_of_active {start : Run} {outer : List Run} (h : start.Active (r :: outer))
    (hstart : start.Orderly) :
    r.Orderly ∧ start.machine.heap.Grows r.machine.heap ∧ r.after.heap.Grows start.after.heap := by
  induction h using Active.stack_induction with
  | start =>
    exact ⟨hstart, .refl _, .refl _⟩
  | @begin q q' _ h hbegins ih =>
    obtain ⟨hq, hbefore, hbehind⟩ := ih
    have hq' := orderly_of_begins hbegins hq
    have hend : q'.after.Above q'.after.heap := ⟨.refl _, hq'.above_after.2⟩
    exact ⟨hq', hbefore.trans (above_of_begins hbegins hq).1.1,
      (after_above_of_begins hbegins hq hend).1.trans hbehind⟩

end Run

end Lox
