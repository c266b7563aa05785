import Lox.Proofs.Machine.DeedRuns
import Lox.Proofs.Machine.EffectFree
import Lox.Proofs.Machine.ThinRuns
import Lox.Proofs.Syntax.Equality
import Lox.Session

/-!
# Operands that are evaluated twice

The tree of `a ?? b` has the operand `a` twice: it is evaluated to be compared with nil, and again
for its value. If `a` is without effects this makes no difference. Evaluating it only adds frames and
functions that nothing refers to, and leaving these out gives the machine that was there before. So
whatever is evaluated next does the same as without them.
-/

namespace Lox

/-! ## Leaving out what was added -/

/-- Leave out the frames and functions that `n` has and `m` does not have. -/
def Machine.trim (m n : Machine) : Thinning where
  flat _ := false
  skips := fun (i : Nat) =>
    i != globalFrame && (decide (m.heap.frames.size ≤ i) && decide (i < n.heap.frames.size))
  drops := fun (f : Nat) =>
    decide (m.heap.functions.size ≤ f) && decide (f < n.heap.functions.size)
  firstFrame := n.heap.frames.size
  firstFunction := n.heap.functions.size
  source := m.locals
  target := m.locals
  global := rfl
  kept f hf := by simp [Nat.not_lt.2 hf]
  quiet := nofun

/-- What a step gives without what is left out. -/
def Thinning.result (S : Thinning) :
    EStateM.Result Halt Machine Value → EStateM.Result Halt Machine Value
  | .ok v m => .ok (S.value v) (S.machine m)
  | .error halt m => .error halt (S.machine m)

theorem Thinning.Results.eq_result {S : Thinning} {chain : Chain}
    {r r' : EStateM.Result Halt Machine Value} (h : S.Results chain S.Values r r') :
    r' = S.result r := by
  cases h with
  | error => rfl
  | ok hv =>
    obtain ⟨rfl, -⟩ := hv
    rfl

namespace Machine

variable {m n : Machine} {i f : Nat} {v : Value}

theorem Closed.skips_trim (hm : m.Closed) :
    (!(m.trim n).skips i) = true ↔ i < m.heap.frames.size ∨ n.heap.frames.size ≤ i := by
  have hpos := hm.heap.size
  simp only [trim, globalFrame, Bool.not_eq_true', Bool.and_eq_false_iff, bne_eq_false_iff_eq,
    decide_eq_false_iff_not]
  omega

theorem drops_trim :
    (!(m.trim n).drops f) = true ↔ f < m.heap.functions.size ∨ n.heap.functions.size ≤ f := by
  simp only [trim, Bool.not_eq_true', Bool.and_eq_false_iff, decide_eq_false_iff_not]
  omega

theorem Gains.frame_trim (hn : m.Gains n) (hm : m.Closed) (hi : i < m.heap.frames.size) :
    (m.trim n).frame i = i :=
  (rank_of_gap hn.heap.frames fun _ => hm.skips_trim).1 i (Nat.le_of_lt hi)

theorem Gains.function_trim (hn : m.Gains n) (hf : f < m.heap.functions.size) :
    (m.trim n).function f = f :=
  (rank_of_gap hn.heap.functions fun _ => drops_trim).1 f (Nat.le_of_lt hf)

/-- A frame or function that was made later moves down. -/
theorem Gains.frame_trim_add (hn : m.Gains n) (hm : m.Closed) (hi : n.heap.frames.size ≤ i) :
    n.heap.frames.size - m.heap.frames.size + (m.trim n).frame i = i :=
  (Nat.add_comm _ _).trans ((rank_of_gap hn.heap.frames fun _ => hm.skips_trim).2 i hi)

theorem Gains.function_trim_add (hn : m.Gains n) (hf : n.heap.functions.size ≤ f) :
    n.heap.functions.size - m.heap.functions.size + (m.trim n).function f = f :=
  (Nat.add_comm _ _).trans ((rank_of_gap hn.heap.functions fun _ => drops_trim).2 f hf)

theorem Gains.value_trim (hn : m.Gains n) (hv : m.heap.Has v) : (m.trim n).value v = v := by
  cases v with
  | function f => rw [Thinning.value, hn.function_trim hv]
  | _ => rfl

theorem holds_trim (hv : m.heap.Has v) : (m.trim n).Holds v := by
  rintro f rfl
  simpa using drops_trim.2 (.inl hv)

theorem Closed.keeps_of_rooted (hm : m.Closed) {chain : Chain}
    (hchain : Rooted m.heap.frames.size chain) : ∀ i ∈ chain, (m.trim n).skips i = false :=
  fun i hi => by simpa using hm.skips_trim.2 (.inl (hchain.lt_of_mem i hi))

theorem Gains.chain_trim (hn : m.Gains n) (hm : m.Closed) {chain : Chain}
    (hchain : Rooted m.heap.frames.size chain) : (m.trim n).chain chain = chain := by
  have hkept : chain.filter (fun i => !(m.trim n).skips i) = chain :=
    List.filter_eq_self.2 fun i hi => hm.skips_trim.2 (.inl (hchain.lt_of_mem i hi))
  rw [Thinning.chain, hkept]
  calc chain.map (m.trim n).frame
      = chain.map id := List.map_congr_left fun i hi => hn.frame_trim hm (hchain.lt_of_mem i hi)
    _ = chain := List.map_id _

theorem Gains.closure_trim (hn : m.Gains n) (hm : m.Closed) {c : Closure}
    (hc : Rooted m.heap.frames.size c.chain) : (m.trim n).closure c = c := by
  rw [Thinning.closure, hn.chain_trim hm hc]

/-- Without what was added the machine is the one before. -/
theorem Gains.machine_trim (hn : m.Gains n) (hm : m.Closed) : (m.trim n).machine n = m := by
  have hvalues : ∀ t : Table Value, (∀ v ∈ t.values, m.heap.Has v) → t.map (m.trim n).value = t :=
    fun t ht => Table.map_eq_self fun v hv => hn.value_trim (ht v hv)
  have hframes : (m.trim n).frames n.heap.frames = m.heap.frames :=
    congrArg Frames.mk (compact_of_gap hn.heap.frames (fun _ => hm.skips_trim) hn.heap.frame
      fun i _ => hvalues _ (hm.heap.bound i))
  have hfunctions : compact (m.trim n).closure (fun f => !(m.trim n).drops f) n.heap.functions =
      m.heap.functions :=
    compact_of_gap hn.heap.functions (fun _ => drops_trim) hn.heap.function fun f hf =>
      hn.closure_trim hm (hm.heap.functions f hf)
  have hclass : ∀ c, (m.trim n).classObject (m.heap.cls c) = m.heap.cls c := by
    intro c
    rw [Thinning.classObject, hvalues _ (hm.heap.statics c),
      Table.map_eq_self fun k hk => hn.closure_trim hm (hm.heap.methods c k hk)]
  have hclasses : n.heap.classes.map (m.trim n).classObject = m.heap.classes := by
    rw [hn.heap.classes]
    exact map_eq_self fun c _ => hclass c
  have hinst : ∀ i, (m.trim n).inst (m.heap.inst i) = m.heap.inst i := by
    intro i
    rw [Thinning.inst, hvalues _ (hm.heap.fields i)]
  have hinstances : n.heap.instances.map (m.trim n).inst = m.heap.instances := by
    rw [hn.heap.instances]
    exact map_eq_self fun i _ => hinst i
  have hchain : (m.trim n).chain n.chain = m.chain := by
    rw [hn.chain]
    exact hn.chain_trim hm hm.chain
  have hlocals : (m.trim n).target = m.locals := rfl
  obtain ⟨-, -, hdepth, -, hsink, hclock⟩ := hn
  rw [Thinning.machine, Thinning.heap, hframes, hfunctions, hclasses, hinstances, hchain, hlocals,
    hdepth, hsink, hclock]

theorem passes_trim (v : Visit) : (m.trim n).Passes v where
  distance := by
    have hthin : Layers.thin (m.trim n).flat v.layers = id := funext fun _ => Layers.thin_false
    rw [hthin, Option.map_id]
    rfl
  solid _ _ := Layers.solid_false
  receiver _ _ _ := Layers.solid_false

/-- Nothing refers to what was added. -/
theorem Gains.sound_trim (hn : m.Gains n) (hm : m.Closed) : (m.trim n).Sound n.heap where
  firstFrame := Nat.le_refl _
  firstFunction := Nat.le_refl _
  hollow i hi hle := by
    have hkept : (!(m.trim n).skips i) = true := hm.skips_trim.2 (.inr hle)
    rw [hi] at hkept
    cases hkept
  bound i hi name v hv := by
    rcases hm.skips_trim.1 (by simpa using hi) with hi | hi
    · rw [hn.heap.frame i hi] at hv
      exact holds_trim (hm.heap.bound i v (Table.mem_values_of_get? hv))
    · rw [Frames.frame, Array.getD_eq_getD_getElem?, Array.getElem?_eq_none hi] at hv
      cases hv
  functions f hf := by
    refine ⟨.outside, [], .outside ?_, fun v _ => passes_trim v, fun _ => Layers.solid_false⟩
    rcases drops_trim.1 (by simpa using hf) with hf | hf
    · rw [hn.heap.function f hf]
      exact hm.keeps_of_rooted (hm.heap.functions f hf)
    · rw [Heap.function, Array.getD_eq_getD_getElem?, Array.getElem?_eq_none hf]
      exact fun _ h => by cases h
  methods c name k hk := by
    rw [hn.heap.cls] at hk
    have hk := hm.heap.methods c k (Table.mem_values_of_get? hk)
    exact ⟨.outside, [], .outside (hm.keeps_of_rooted hk), fun v _ => passes_trim v⟩
  statics c name v hv := by
    rw [hn.heap.cls] at hv
    exact holds_trim (hm.heap.statics c v (Table.mem_values_of_get? hv))
  fields i name v hv := by
    rw [hn.heap.inst] at hv
    exact holds_trim (hm.heap.fields i v (Table.mem_values_of_get? hv))

theorem Gains.results_trim (hn : m.Gains n) (hm : m.Closed) (fuel : Nat) (e : Expr) :
    (m.trim n).Results n.chain (m.trim n).Values (evaluate fuel e n) (evaluate fuel e m) := by
  have hat : (m.trim n).At n.chain n := ⟨hn.sound_trim hm, hn.locals, rfl⟩
  have hknows : (m.trim n).Knows (evaluateTrace .frames fuel e n) := by
    intro i region outer _ hi
    have hkept : (m.trim n).skips i = false := by simpa using hm.skips_trim.2 (.inr hi)
    rw [hkept]
    exact (Layers.isFlat_false region).symm
  have hfits : (m.trim n).Fits [] n.chain := .outside (hn.chain ▸ hm.keeps_of_rooted hm.chain)
  have hthins := (thins_evaluate_execute (m.trim n) fuel).1 e .outside [] n (fun v _ => passes_trim v)
    hfits hat hknows
  have hflat : evaluateFlat (m.trim n).flat fuel = evaluate fuel :=
    (evaluateFlat_executeFlat_eq (fun _ => rfl) fuel).1
  rwa [hflat, hn.machine_trim hm] at hthins

/-- What was added to a machine makes no difference. -/
theorem Closed.evaluate_eq_trim (hm : m.Closed) (hn : m.Gains n) (fuel : Nat) (e : Expr) :
    evaluate fuel e m = (m.trim n).result (evaluate fuel e n) :=
  (hn.results_trim hm fuel e).eq_result

end Machine

/-! ## Evaluating again -/

/-- Two values are the same, or they are two functions, made since the heaps `K` and `K'`, that are
one method bound to one receiver. -/
inductive Heap.Agrees (K h K' h' : Heap) : Value → Value → Prop
  | same (v : Value) : Agrees K h K' h' v v
  | bound {f f' : FunctionId} {method : Closure} {receiver : InstanceId}
      (hf : K.Binds h f method receiver) (hf' : K'.Binds h' f' method receiver) :
      Agrees K h K' h' (.function f) (.function f')

/-- An expression that was evaluated on the machine `m` does the same when it is evaluated again: it
fails in the same way, or it gives a value that agrees with the first one. -/
inductive Recurs (m : Machine) :
    EStateM.Result Halt Machine Value → EStateM.Result Halt Machine Value → Prop
  | ok {v v' : Value} {n n' : Machine} (hn : n.Gains n')
      (hv : Heap.Agrees m.heap n.heap n.heap n'.heap v v') : Recurs m (.ok v n) (.ok v' n')
  | error {halt : Halt} {n n' : Machine} (hn : n.Gains n') :
      Recurs m (.error halt n) (.error halt n')

section

open Exec

variable {m n n' : Machine} {a : Expr}

/-- Evaluating an expression without effects leaves a closed machine that has gained. -/
theorem Machine.Closed.after_evaluate (hm : m.Closed) (fuel : Nat) (ha : a.EffectFree) :
    m.Gains ((evaluate fuel a).after m) ∧ ((evaluate fuel a).after m).Closed := by
  obtain ⟨_, hsteps, hchain⟩ := ((does_evaluate_execute fuel).1 a m hm.planted).after
  refine ⟨?_, (hm.planted.of_steps hsteps hchain).closed⟩
  have hgleans := observes_evaluate hm fuel ha m (.refl m)
  rw [Exec.after]
  generalize evaluate fuel a m = r at hgleans
  cases hgleans with
  | ok hn | error hn => exact hn

/-- A frame that was made later moves to a place among those that were added. -/
theorem Machine.Gains.frame_trim_bounds (hn : m.Gains n) (hm : m.Closed)
    (heq : (m.trim n).heap n'.heap = n.heap) {i : Nat} (hfresh : n.heap.frames.size ≤ i)
    (hi : i < n'.heap.frames.size) :
    m.heap.frames.size ≤ (m.trim n).frame i ∧ (m.trim n).frame i < n.heap.frames.size := by
  have hle := hn.heap.frames
  have hplace := hn.frame_trim_add hm hfresh
  have hend := hn.frame_trim_add hm (Nat.le_trans hfresh (Nat.le_of_lt hi))
  have hsize : (m.trim n).frame n'.heap.frames.size = n.heap.frames.size :=
    Thinning.frame_next.trans (congrArg (fun h => h.frames.size) heq)
  rw [hsize] at hend
  have hlt : n.heap.frames.size > (m.trim n).frame i := by omega
  exact ⟨by omega, hlt⟩

/-- A function that was made later moves to a place among those that were added. -/
theorem Machine.Gains.function_trim_bounds (hn : m.Gains n)
    (heq : (m.trim n).heap n'.heap = n.heap) {f : Nat} (hfresh : n.heap.functions.size ≤ f)
    (hf : f < n'.heap.functions.size) :
    m.heap.functions.size ≤ (m.trim n).function f ∧
      (m.trim n).function f < n.heap.functions.size := by
  have hle := hn.heap.functions
  have hplace := hn.function_trim_add hfresh
  have hend := hn.function_trim_add (Nat.le_trans hfresh (Nat.le_of_lt hf))
  have hsize : (m.trim n).function n'.heap.functions.size = n.heap.functions.size :=
    Thinning.function_size.trans (congrArg (fun h => h.functions.size) heq)
  rw [hsize] at hend
  have hlt : n.heap.functions.size > (m.trim n).function f := by omega
  exact ⟨by omega, hlt⟩

/-- A method that is bound on the machine with what was added is the same without it. -/
theorem Heap.Binds.trim (hn : m.Gains n) (hm : m.Closed)
    (heq : (m.trim n).heap n'.heap = n.heap) {f : FunctionId} {method : Closure}
    {receiver : InstanceId} (hf : n.heap.Binds n'.heap f method receiver) :
    m.heap.Binds n.heap ((m.trim n).function f) method receiver := by
  obtain ⟨i, hfresh, hi, hfunction, hframe⟩ := hf.bound
  obtain ⟨c, name, hmethod⟩ := hf.declared
  rw [hn.heap.cls] at hmethod
  have hkeep : (m.trim n).skips i = false := by simpa using hm.skips_trim.2 (.inr hfresh)
  have hkept : (m.trim n).drops f = false := by simpa using Machine.drops_trim.2 (.inr hf.fresh)
  obtain ⟨hle, hlt⟩ := hn.function_trim_bounds heq hf.fresh hf.made
  obtain ⟨hle', hlt'⟩ := hn.frame_trim_bounds hm heq hfresh hi
  have hchain : (m.trim n).chain (i :: method.chain) = (m.trim n).frame i :: method.chain := by
    rw [Thinning.chain_cons, hkeep,
      hn.chain_trim hm (hm.heap.methods c method (Table.mem_values_of_get? hmethod))]
    rfl
  refine ⟨hle, hlt, ⟨c, name, hmethod⟩, hn.heap.instances ▸ hf.lives, _, hle', hlt', ?_, ?_⟩
  · have hclosure : ((m.trim n).heap n'.heap).function _ = _ := Thinning.function_heap hkept
    rw [heq, hfunction, Thinning.closure, hchain] at hclosure
    exact hclosure
  · have hsame : ((m.trim n).heap n'.heap).frames.frame _ = _ :=
      Thinning.frame_frames n'.heap.frames hkeep
    rw [heq, hframe, Table.map_insert, Table.map_empty] at hsame
    exact hsame

/-- The value of an expression that was evaluated again agrees with the first one. -/
theorem Heap.Yields.agrees (hn : m.Gains n) (hm : m.Closed)
    (heq : (m.trim n).heap n'.heap = n.heap) {v' : Value} (hv' : n.heap.Yields n'.heap v')
    (hholds : (m.trim n).Holds v') :
    Heap.Agrees m.heap n.heap n.heap n'.heap ((m.trim n).value v') v' := by
  cases hv' with
  | bound hf => exact .bound (hf.trim hn hm heq) hf
  | old hv' =>
    have hsame : (m.trim n).value v' = v' := by
      cases v' with
      | function f =>
        have hkept : f < m.heap.functions.size ∨ n.heap.functions.size ≤ f :=
          Machine.drops_trim.1 (by simpa using hholds f rfl)
        rw [Thinning.value, hn.function_trim (hkept.resolve_right (Nat.not_le.2 hv'))]
      | _ => rfl
    rw [hsame]
    exact .same v'

/-- An expression without effects does the same when it is evaluated again. -/
theorem Machine.Closed.recurs (hm : m.Closed) (fuel : Nat) (ha : a.EffectFree) :
    Recurs m (evaluate fuel a m) (evaluate fuel a ((evaluate fuel a).after m)) := by
  obtain ⟨hn, hclosed⟩ := hm.after_evaluate fuel ha
  obtain ⟨n, hafter⟩ : ∃ n, n = (evaluate fuel a).after m := ⟨_, rfl⟩
  rw [← hafter] at hn hclosed ⊢
  have hagain := hn.results_trim hm fuel a
  have hgleans := observes_evaluate hclosed fuel ha n (.refl n)
  rw [Exec.after] at hafter
  generalize evaluate fuel a n = r' at hagain hgleans ⊢
  generalize evaluate fuel a m = r at hagain hafter ⊢
  cases hagain with
  | @error halt n' _ =>
    cases hgleans with
    | error hn' =>
      simp only at hafter
      rw [← hafter]
      exact .error hn'
  | @ok v' v n' hv _ =>
    obtain ⟨rfl, hholds⟩ := hv
    cases hgleans with
    | ok hn' hv' =>
      have heq : (m.trim n).heap n'.heap = n.heap := congrArg Machine.heap hafter.symm
      have hagrees := hv'.agrees hn hm heq hholds
      simp only at hafter
      rw [← hafter]
      exact .ok hn' hagrees

/-! ## The tree of `??` -/

/-- The left operand is evaluated and compared with nil, and then it is evaluated again or the other
operand is. -/
theorem evaluate_coalesce (a b : Expr) (line fuel : Nat) (m : Machine) :
    evaluate (fuel + 2) (a.coalesce line b) m =
      match evaluate fuel a m with
      | .error halt n => .error halt n
      | .ok .nil n => evaluate (fuel + 1) b n
      | .ok _ n => evaluate (fuel + 1) a n := by
  cases fuel with
  | zero => rfl
  | succ fuel =>
    let op := Token.ofSymbol .bangEqual "!=" line
    have htree : evaluate (fuel + 3) (a.coalesce line b) m =
        ((do
          let v ← evaluate (fuel + 1) a
          ofExcept op (applyBinary op v .nil)) >>= fun v =>
          if v.isTruthy then evaluate (fuel + 2) a else evaluate (fuel + 2) b) m := rfl
    rw [htree]
    simp only [Bind.bind, EStateM.bind]
    cases evaluate (fuel + 1) a m with
    | error halt n => rfl
    | ok v n => cases v <;> rfl

/-- For an operand `a` without effects the tree of `a ?? b` does what the operator says, on each
machine on which everything that is referred to is there. Evaluating `a` changes nothing that is
there, and evaluating it again at once does the same. So the tree fails as `a` does, gives the value
of `a` unless it is nil, and otherwise does what `b` does, up to the places of new frames and
functions. -/
theorem coalesce_of_effectFree (ha : a.EffectFree) (b : Expr) (line fuel : Nat) (hm : m.Closed) :
    m.Gains ((evaluate fuel a).after m) ∧
      Recurs m (evaluate fuel a m) (evaluate fuel a ((evaluate fuel a).after m)) ∧
      (∀ halt n, evaluate fuel a m = .error halt n →
        evaluate (fuel + 2) (a.coalesce line b) m = .error halt n) ∧
      (∀ v n, evaluate fuel a m = .ok v n → v ≠ .nil →
        Recurs m (.ok v n) (evaluate (fuel + 2) (a.coalesce line b) m)) ∧
      ∀ n, evaluate fuel a m = .ok .nil n → m.Gains n ∧ evaluate (fuel + 1) b m =
        (m.trim n).result (evaluate (fuel + 2) (a.coalesce line b) m) := by
  obtain ⟨hgains, -⟩ := hm.after_evaluate fuel ha
  have hrecurs := hm.recurs fuel ha
  refine ⟨hgains, hrecurs, fun halt n hfail => ?_, fun v n hok hv => ?_, fun n hnil => ?_⟩
  · rw [evaluate_coalesce, hfail]
  · have hafter : (evaluate fuel a).after m = n := by rw [Exec.after, hok]
    rw [hok, hafter] at hrecurs
    have hmore : evaluate (fuel + 1) a n = evaluate fuel a n := by
      refine ((approximates_of_le (Nat.le_succ fuel)).1 a).eq_of_ne fun n' hfail => ?_
      rw [hfail] at hrecurs
      cases hrecurs
    have htree : evaluate (fuel + 2) (a.coalesce line b) m = evaluate (fuel + 1) a n := by
      rw [evaluate_coalesce, hok]
      cases v with
      | nil => exact absurd rfl hv
      | _ => rfl
    rw [htree, hmore]
    exact hrecurs
  · have hafter : (evaluate fuel a).after m = n := by rw [Exec.after, hnil]
    rw [hafter] at hgains
    rw [evaluate_coalesce, hnil]
    exact ⟨hgains, hm.evaluate_eq_trim hgains (fuel + 1) b⟩

end

/-- A method that is bound by both evaluations, and one that is bound though the operand is nil, where
the other operand assigns a variable. -/
theorem coalesce_of_effectFree_bound :
    let name (text : String) : Token := ⟨.symbol .identifier, text, 1⟩
    let o : Expr := .var 0 (name "o")
    let method : Expr := .get o (name "m")
    let absent : Expr := .logical method ⟨.symbol .kwAnd, "and", 1⟩ (.literal .nil)
    let assignment : Expr := .grouping (.assign 2 (name "o") (.literal (.bool true)))
    let declared : FunctionDecl := ⟨name "m", [], []⟩
    let program : List Stmt := [.classDecl ⟨name "A", none, [declared], []⟩,
      .varDecl (name "o") (some (.call (.var 0 (name "A")) (name ")") []))]
    let m := (Job.mk 4 ∅ program).leaves (.initial {} {})
    (Session.read 0 "o.m??(o=true);").statements = [.expression (method.coalesce 1 assignment)] ∧
    ∃ n : Machine, m.Closed ∧ m.Gains n ∧ n.heap.functions.size = m.heap.functions.size + 1 ∧
      evaluate 2 method m = .ok (.function 0) n ∧ evaluate 3 absent m = .ok .nil n ∧
      Recurs m (.ok (.function 0) n) (evaluate 4 (method.coalesce 1 assignment) m) ∧
      evaluate 4 assignment m = (m.trim n).result (evaluate 5 (absent.coalesce 1 assignment) m) := by
  intro name o method absent assignment declared program m
  refine ⟨by decide +kernel, ?_⟩
  have hm : m.Closed := by
    obtain ⟨_, -, hplanted⟩ := (Machine.closed_initial {} {}).planted.job ⟨4, ∅, program⟩
    exact hplanted.closed
  let globals : Frame :=
    ⟨Machine.initialGlobals.entries ++ [("A", .class_ 0), ("o", .instance_ 0)]⟩
  let m₁ : Machine := { Machine.initial {} {} with
    heap :=
      { frames := ⟨#[globals]⟩
        classes := #[⟨"A", [], methodTable [0] [declared], ∅⟩]
        instances := #[⟨0, ∅⟩] } }
  have hleaves : m = m₁ := rfl
  rw [hleaves] at hm ⊢
  let n := (m₁.heap.bindMethod ⟨declared, [0], false⟩ (.instance_ 0)).2
  have hmethod : evaluate 2 method m₁ = .ok (.function 0) { m₁ with heap := n } := rfl
  have habsent : evaluate 3 absent m₁ = .ok .nil { m₁ with heap := n } := rfl
  have hfirst := coalesce_of_effectFree (a := method) trivial assignment 1 2 hm
  have hsecond := coalesce_of_effectFree (a := absent) ⟨trivial, trivial⟩ assignment 1 3 hm
  obtain ⟨hgains, htree⟩ := hsecond.2.2.2.2 _ habsent
  exact ⟨_, hm, hgains, rfl, hmethod, habsent, hfirst.2.2.2.1 _ _ hmethod (fun h => by cases h), htree⟩

end Lox
