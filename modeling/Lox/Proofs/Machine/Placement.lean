import Lox.Proofs.Machine.Orderly

/-!
# Where runs are placed

A run inside the run of a program is at some code of the program: the chain that it sees fits the
scopes around the code, and the nodes of the code are among those of the program. What happens while
it is active is a part of what happens while the run around it is.
-/

namespace Lox

open Exec

variable {e : Expr} {s : Stmt}

/-! ## Events -/

/-- What happens while a task is done. -/
def Task.events (fuel : Nat) : Task → Events
  | evaluate e => evaluateTrace .frames fuel e
  | evaluateAll es => evaluateAllTrace (Lox.evaluate fuel) (evaluateTrace .frames fuel) es
  | execute s => executeTrace .frames fuel s
  | executeAll ss => executeAllTrace (Lox.execute fuel) (executeTrace .frames fuel) ss
  | block chain body => fun m =>
    executeAllTrace (Lox.execute fuel) (executeTrace .frames fuel) body { m with chain := chain }
  | call callee _ vs =>
    callValueTrace .frames (Lox.execute fuel) (executeTrace .frames fuel) callee vs
  | invoke f vs => invokeTrace .frames (Lox.execute fuel) (executeTrace .frames fuel) vs f
  | closure c vs => runClosureTrace .frames (Lox.execute fuel) (executeTrace .frames fuel) c vs
  | program ss => interpretTrace .frames fuel ss

def Run.events (r : Run) : List Event := r.task.events r.fuel r.machine

/-- What happens first in an expression is what happens in the part that is evaluated first. -/
theorem exists_evaluateEvents_of_first? {fuel : Nat} {e' : Expr} {m : Machine}
    (h : e.first? = some e') :
    ∃ rest, evaluateTrace .frames (fuel + 1) e m = evaluateTrace .frames fuel e' m ++ rest := by
  cases e with
  | literal | var | thisRef | superRef => cases h
  | grouping | unary =>
    cases h
    exact ⟨[], (List.append_nil _).symm⟩
  | binary | logical | conditional | assign | call | get | set =>
    cases h
    exact ⟨_, rfl⟩

/-- What happens first in a statement is what happens in its expression. -/
theorem exists_executeEvents_of_mem {fuel : Nat} {m : Machine} (h : e ∈ s.expressions) :
    ∃ rest, executeTrace .frames (fuel + 1) s m = evaluateTrace .frames fuel e m ++ rest := by
  cases s with
  | block | funDecl => cases h
  | expression | print =>
    obtain rfl := List.mem_singleton.1 h
    exact ⟨[], (List.append_nil _).symm⟩
  | varDecl | returnWith =>
    obtain rfl := Option.mem_toList.1 h
    exact ⟨[], (List.append_nil _).symm⟩
  | ifThen | ifElse | whileLoop =>
    obtain rfl := List.mem_singleton.1 h
    exact ⟨_, rfl⟩
  | classDecl decl =>
    obtain ⟨name, superclass, methods, statics⟩ := decl
    obtain rfl : superclass = some e := Option.mem_toList.1 h
    exact ⟨_, rfl⟩

/-- What happens while an instance of a class with an initializer is made. -/
theorem constructEvents_of_initializer? {exec : Stmt → Exec Completion} {events : Stmt → Events}
    {c : ClassId} {init : Closure} {m : Machine} (arguments : List Value)
    (hinit : m.heap.initializer? c = some init) :
    constructTrace .frames exec events c arguments m =
      [.opened m.heap.frames.next (.receiver init.decl) init.chain] ++
        runClosureTrace .frames exec events { init with chain := m.heap.frames.next :: init.chain }
          arguments
          { m with
            heap := ((m.heap.newInstance c).2.bindReceiver init
              (.instance_ m.heap.instances.size)).2 } := by
  have hsame : (m.heap.newInstance c).2.initializer? c = some init := hinit
  have hmade : withHeap (fun h => h.newInstance c) m =
      .ok m.heap.instances.size { m with heap := (m.heap.newInstance c).2 } := rfl
  rw [constructTrace, Trace.andThen_of_ok _ _ hmade]
  simp only [hsame]
  rfl

/-! ## Places -/

/-- A task has to do with code whose nodes are among `vs`, and the chain that the code sees fits the
scopes around it. -/
def Task.Placed (vs : List Visit) (events : List Event) (m : Machine) : Task → Prop
  | .evaluate e => ∃ cls layers, e.WellFormed ∧ (∀ v ∈ e.visits cls layers, v ∈ vs) ∧
      Matches m.heap.frames events layers m.chain
  | .evaluateAll es => ∃ cls layers, Exprs.WellFormed es ∧
      (∀ v ∈ Exprs.visits cls layers es, v ∈ vs) ∧ Matches m.heap.frames events layers m.chain
  | .execute s => ∃ cls layers, s.WellFormed ∧ (∀ v ∈ s.visits cls layers, v ∈ vs) ∧
      Walk.Settled layers ∧ Matches m.heap.frames events layers m.chain
  | .executeAll ss => ss = [] ∨ ∃ cls layers, Stmts.WellFormed ss ∧
      (∀ v ∈ Stmts.visits cls layers ss, v ∈ vs) ∧ Walk.Settled layers ∧
        Matches m.heap.frames events layers m.chain
  | .block chain ss => ss = [] ∨ ∃ cls layers, Stmts.WellFormed ss ∧
      (∀ v ∈ Stmts.visits cls layers ss, v ∈ vs) ∧ Walk.Settled layers ∧
        Matches m.heap.frames events layers chain
  | .call _ _ _ => True
  | .invoke f arguments => arguments.length = m.heap.arity f ∧
      ∀ c, f = .closure c → c.Fits vs m.heap.frames events
  | .closure c arguments => arguments.length = c.decl.arity ∧ c.Fits vs m.heap.frames events
  | .program ss => Stmts.WellFormed ss ∧ (∀ v ∈ Stmts.visits .outside [] ss, v ∈ vs) ∧
      Matches m.heap.frames events [] m.chain

/-- A run is at code whose nodes are among `vs`, behind the given events. -/
structure Run.Placed (vs : List Visit) (events : List Event) (r : Run) : Prop where
  inv : Inv vs events r.machine.heap r.machine.locals
  task : r.task.Placed vs events r.machine

theorem Safe.of_ok [Vacancy] {α : Type} {vs : List Visit} {before during : List Event} {m m' : Machine}
    {p : Exec α} {a : α} {post : α → Machine → List Event → Prop}
    (h : Safe vs before m p during post) (hp : p m = .ok a m') :
    Moves vs before (before ++ during) m m' ∧ post a m' (before ++ during) := by
  unfold Safe at h
  rwa [hp] at h

/-- The nodes of the part of an expression that is evaluated first. -/
theorem Expr.visits_first {e' : Expr} (h : e.first? = some e') (cls : ClassRole)
    (layers : List Layer) : e'.visits cls layers ⊆ e.visits cls layers := by
  cases e with
  | literal | var | thisRef | superRef => cases h
  | grouping | unary | get =>
    cases h
    exact List.Subset.refl _
  | binary | logical | conditional | assign | call =>
    cases h
    exact List.subset_append_left _ _
  | set =>
    cases h
    exact List.subset_append_right _ _

/-- The expression of a statement is in the scopes around the statement, or in these with the name
that the statement declares, which waits for its initializer. -/
theorem Stmt.exists_visits_expression (h : e ∈ s.expressions) (cls : ClassRole)
    (layers : List Layer) : ∃ layers', e.visits cls layers' ⊆ s.visits cls layers ∧
      (layers' = layers ∨ ∃ name, layers' = Layers.await name layers) := by
  cases s with
  | block | funDecl => cases h
  | expression | print =>
    obtain rfl := List.mem_singleton.1 h
    exact ⟨layers, List.Subset.refl _, .inl rfl⟩
  | varDecl =>
    obtain rfl := Option.mem_toList.1 h
    exact ⟨_, List.Subset.refl _, .inr ⟨_, rfl⟩⟩
  | returnWith =>
    obtain rfl := Option.mem_toList.1 h
    exact ⟨layers, List.Subset.refl _, .inl rfl⟩
  | ifThen | ifElse | whileLoop =>
    obtain rfl := List.mem_singleton.1 h
    exact ⟨layers, List.subset_append_left _ _, .inl rfl⟩
  | classDecl decl =>
    obtain ⟨name, superclass, methods, statics⟩ := decl
    obtain rfl : superclass = some e := Option.mem_toList.1 h
    exact ⟨_, List.subset_append_left _ _, .inr ⟨_, rfl⟩⟩

namespace Run

variable {vs : List Visit} {before : List Event} {r r' : Run}

/-- A run that is begun is at code, and what happens in it is a part of what happens in the run
that begins it. -/
def Follows (vs : List Visit) (before : List Event) (r r' : Run) : Prop :=
  ∃ mid rest, r'.Placed vs (before ++ mid) ∧ r.events = mid ++ (r'.events ++ rest)

/-- A run that is the first to be begun. -/
theorem Follows.of_first {rest : List Event} (hr' : r'.Placed vs before)
    (hevents : r.events = r'.events ++ rest) : Follows vs before r r' :=
  ⟨[], rest, by rwa [List.append_nil], hevents⟩

/-- A run that is the last to be begun. -/
theorem Follows.of_last {mid : List Event} (hr' : r'.Placed vs (before ++ mid))
    (hevents : r.events = mid ++ r'.events) : Follows vs before r r' :=
  ⟨mid, [], hr', by rw [List.append_nil, hevents]⟩

section

variable {fuel : Nat} {cls : ClassRole} {layers : List Layer} {m m' : Machine}

/-- Behind an expression the machine is still at the code around it. -/
theorem situated_of_evaluate [Vacancy] {a : Value} (he : e.WellFormed)
    (hvs : ∀ v ∈ e.visits cls layers, v ∈ vs) (hs : Situated vs before m layers)
    (h : evaluate fuel e m = .ok a m') :
    Situated vs (before ++ evaluateTrace .frames fuel e m) m' layers :=
  hs.moves (((safe_evaluate_execute vs fuel).1 e cls layers m before he hvs hs).of_ok h).1

/-- Behind a statement the machine is at the code that follows it. -/
theorem situated_of_execute [Vacancy] (hwf : s.WellFormed) (hvs : ∀ v ∈ s.visits cls layers, v ∈ vs)
    (hsettled : Walk.Settled layers) (hspares : Spares m [s]) (hs : Situated vs before m layers)
    (h : execute fuel s m = .ok .normal m') :
    Situated vs (before ++ executeTrace .frames fuel s m) m' (Layers.after layers s) := by
  have hsafe := (safe_evaluate_execute vs fuel).2 s cls layers m before hwf hvs hsettled
    hspares hs
  obtain ⟨hmoves, hmatches⟩ := hsafe.of_ok h
  exact ⟨hmoves.inv, hmatches, .of_settled (Walk.settled_after hsettled)⟩

end

/-! ## A run and one that it begins -/

/-- The parts of an expression. -/
theorem follows_of_evaluate (he : r.task = .evaluate e) (h : r.Begins r') (hr : r.Placed vs before) :
    Follows vs before r r' := by
  obtain ⟨hinv, htask⟩ := hr
  rw [he] at htask
  obtain ⟨cls, layers, hwf, hvs, hmatches⟩ := htask
  have hs : Situated vs before r.machine layers := ⟨hinv, hmatches, .nowhere⟩
  cases h with
  | first h =>
    cases he
    obtain ⟨rest, hrest⟩ := exists_evaluateEvents_of_first? h
    exact .of_first ⟨hinv, cls, layers, hwf.first h,
      fun v hv => hvs v (Expr.visits_first h cls layers hv), hmatches⟩ hrest
  | binaryRight h =>
    cases he
    obtain ⟨hleft, hright⟩ := List.forall_mem_append.1 hvs
    have hs' := situated_of_evaluate hwf.2.1 hleft hs h
    exact .of_last ⟨hs'.inv, cls, layers, hwf.2.2, hright, hs'.fits⟩ (Trace.andThen_of_ok _ _ h)
  | logicalRight h ha =>
    cases he
    obtain ⟨hleft, hright⟩ := List.forall_mem_append.1 hvs
    have hs' := situated_of_evaluate hwf.1 hleft hs h
    refine .of_last ⟨hs'.inv, cls, layers, hwf.2, hright, hs'.fits⟩
      ((Trace.andThen_of_ok _ _ h).trans ?_)
    rw [ha]
    rfl
  | thenValue h hv =>
    cases he
    obtain ⟨hc, hrest⟩ := List.forall_mem_append.1 hvs
    have hs' := situated_of_evaluate hwf.1 hc hs h
    refine .of_last ⟨hs'.inv, cls, layers, hwf.2.1, (List.forall_mem_append.1 hrest).1, hs'.fits⟩
      ((Trace.andThen_of_ok _ _ h).trans ?_)
    rw [hv]
    rfl
  | elseValue h hv =>
    cases he
    obtain ⟨hc, hrest⟩ := List.forall_mem_append.1 hvs
    have hs' := situated_of_evaluate hwf.1 hc hs h
    refine .of_last ⟨hs'.inv, cls, layers, hwf.2.2, (List.forall_mem_append.1 hrest).2, hs'.fits⟩
      ((Trace.andThen_of_ok _ _ h).trans ?_)
    rw [hv]
    rfl
  | @fieldValue _ _ _ _ v _ _ h hv =>
    cases he
    obtain ⟨hvalue, hobject⟩ := List.forall_mem_append.1 hvs
    have hs' := situated_of_evaluate hwf.1 hobject hs h
    refine .of_last ⟨hs'.inv, cls, layers, hwf.2, hvalue, hs'.fits⟩
      ((Trace.andThen_of_ok _ _ h).trans ?_)
    cases v with
    | instance_ | class_ => exact congrArg _ (congrFun (Trace.andThen_nothing _ _) _)
    | _ => cases hv
  | arguments h =>
    cases he
    obtain ⟨hcallee, hes⟩ := List.forall_mem_append.1 hvs
    have hs' := situated_of_evaluate hwf.1 hcallee hs h
    exact ⟨_, _, ⟨hs'.inv, cls, layers, hwf.2, hes, hs'.fits⟩, Trace.andThen_of_ok _ _ h⟩
  | @call fuel _ _ es _ _ _ _ _ h hall =>
    cases he
    obtain ⟨hcallee, hes⟩ := List.forall_mem_append.1 hvs
    have hs' := situated_of_evaluate hwf.1 hcallee hs h
    have hsafe := safe_evaluateAll (safe_evaluate_execute vs fuel).1 es hwf.2 hes hs'
    obtain ⟨hmoves, -⟩ := hsafe.of_ok hall
    rw [List.append_assoc] at hmoves
    refine .of_last ⟨hmoves.inv, trivial⟩ ((Trace.andThen_of_ok _ _ h).trans ?_)
    rw [Trace.andThen_of_ok _ _ hall, List.append_assoc]
    rfl
  | _ => cases he

/-- The parts of a statement. -/
theorem follows_of_execute (he : r.task = .execute s) (h : r.Begins r') (hr : r.Placed vs before) :
    Follows vs before r r' := by
  obtain ⟨hinv, htask⟩ := hr
  rw [he] at htask
  obtain ⟨cls, layers, hwf, hvs, hsettled, hmatches⟩ := htask
  have hs : Situated vs before r.machine layers := ⟨hinv, hmatches, .nowhere⟩
  cases h with
  | expression h =>
    cases he
    obtain ⟨rest, hrest⟩ := exists_executeEvents_of_mem h
    obtain ⟨layers', hsub, hlayers⟩ := Stmt.exists_visits_expression h cls layers
    refine .of_first ⟨hinv, cls, layers', hwf.expressions _ h, fun v hv => hvs v (hsub hv), ?_⟩
      hrest
    rcases hlayers with rfl | ⟨name, rfl⟩
    · exact hmatches
    · exact hmatches.await hsettled name
  | thenOnly h hv =>
    cases he
    obtain ⟨hc, ha⟩ := List.forall_mem_append.1 hvs
    have hs' := situated_of_evaluate hwf.1 hc hs h
    refine .of_last ⟨hs'.inv, cls, layers, hwf.2.2, ha, hsettled, hs'.fits⟩
      ((Trace.andThen_of_ok _ _ h).trans ?_)
    rw [hv]
    rfl
  | thenBranch h hv =>
    cases he
    obtain ⟨hc, hrest⟩ := List.forall_mem_append.1 hvs
    have hs' := situated_of_evaluate hwf.1 hc hs h
    refine .of_last ⟨hs'.inv, cls, layers, hwf.2.1.2, (List.forall_mem_append.1 hrest).1, hsettled,
      hs'.fits⟩ ((Trace.andThen_of_ok _ _ h).trans ?_)
    rw [hv]
    rfl
  | elseBranch h hv =>
    cases he
    obtain ⟨hc, hrest⟩ := List.forall_mem_append.1 hvs
    have hs' := situated_of_evaluate hwf.1 hc hs h
    refine .of_last ⟨hs'.inv, cls, layers, hwf.2.2.2, (List.forall_mem_append.1 hrest).2, hsettled,
      hs'.fits⟩ ((Trace.andThen_of_ok _ _ h).trans ?_)
    rw [hv]
    rfl
  | round h hv =>
    cases he
    obtain ⟨hc, hbody⟩ := List.forall_mem_append.1 hvs
    have hs' := situated_of_evaluate hwf.1 hc hs h
    exact ⟨_, _, ⟨hs'.inv, cls, layers, hwf.2.2, hbody, hsettled, hs'.fits⟩,
      (Trace.andThen_of_ok _ _ h).trans (by rw [hv]; rfl)⟩
  | laterRounds h hv hrun =>
    cases he
    obtain ⟨hc, hbody⟩ := List.forall_mem_append.1 hvs
    have hs' := situated_of_evaluate hwf.1 hc hs h
    have hs'' := situated_of_execute hwf.2.2 hbody hsettled .nowhere hs' hrun
    rw [Layers.after, hwf.2.1, List.append_assoc] at hs''
    refine .of_last ⟨hs''.inv, cls, layers, hwf, hvs, hsettled, hs''.fits⟩
      ((Trace.andThen_of_ok _ _ h).trans ?_)
    rw [hv, if_pos rfl, Trace.andThen_of_ok _ _ hrun, List.append_assoc]
    rfl
  | @block _ body m =>
    cases he
    have hsettled' : Walk.Settled (.block body :: layers) := by simp [Walk.Settled, Layer.block]
    exact .of_last ⟨hinv.newFrame ∅ _ _, .inr ⟨cls, .block body :: layers, hwf, hvs, hsettled',
      hmatches.push hsettled (block_serves body)⟩⟩ rfl
  | _ => cases he

/-- A run that is begun by one at code is at code. -/
theorem follows_of_begins (h : r.Begins r') (hr : r.Placed vs before) : Follows vs before r r' := by
  have hevaluate : ∀ e, r.task = .evaluate e → Follows vs before r r' :=
    fun e he => follows_of_evaluate he h hr
  have hexecute : ∀ s, r.task = .execute s → Follows vs before r r' :=
    fun s hs => follows_of_execute hs h hr
  cases h with
  | first | binaryRight | logicalRight | thenValue | elseValue | fieldValue | arguments | call =>
    exact hevaluate _ rfl
  | expression | thenOnly | thenBranch | elseBranch | round | laterRounds | block =>
    exact hexecute _ rfl
  | argument =>
    obtain ⟨hinv, cls, layers, hwf, hvs, hmatches⟩ := hr
    exact .of_first ⟨hinv, cls, layers, hwf.1, (List.forall_mem_append.1 hvs).1, hmatches⟩ rfl
  | laterArguments h =>
    obtain ⟨hinv, cls, layers, hwf, hvs, hmatches⟩ := hr
    obtain ⟨hfirst, hrest⟩ := List.forall_mem_append.1 hvs
    have hs := situated_of_evaluate hwf.1 hfirst ⟨hinv, hmatches, .nowhere⟩ h
    exact .of_last ⟨hs.inv, cls, layers, hwf.2, hrest, hs.fits⟩ (Trace.andThen_of_ok _ _ h)
  | body => exact .of_first ⟨hr.inv, hr.task⟩ (List.append_nil _).symm
  | statement =>
    obtain ⟨hinv, hnil | ⟨cls, layers, hwf, hvs, hsettled, hmatches⟩⟩ := hr
    · cases hnil
    · exact .of_first ⟨hinv, cls, layers, hwf.1, (List.forall_mem_append.1 hvs).1, hsettled,
        hmatches⟩ rfl
  | laterStatements h =>
    obtain ⟨hinv, hnil | ⟨cls, layers, hwf, hvs, hsettled, hmatches⟩⟩ := hr
    · cases hnil
    · obtain ⟨hfirst, hrest⟩ := List.forall_mem_append.1 hvs
      have hs := situated_of_execute hwf.1 hfirst hsettled .nowhere ⟨hinv, hmatches, .nowhere⟩ h
      exact .of_last ⟨hs.inv, .inr ⟨cls, _, hwf.2, hrest, Walk.settled_after hsettled, hs.fits⟩⟩
        (Trace.andThen_of_ok _ _ h)
  | @invoke fuel callee _ arguments f m hf harity hdepth =>
    have hevents :
        callValueTrace .frames (execute fuel) (executeTrace .frames fuel) callee arguments m =
          invokeTrace .frames (execute fuel) (executeTrace .frames fuel) arguments f
            { m with depth := m.depth + 1 } := by
      rw [callValueTrace, hf]
      simp only
      rw [if_neg (fun hne => hne harity), if_neg (Nat.not_le.2 hdepth)]
    refine .of_first ⟨hr.inv, harity, ?_⟩ (hevents.trans (List.append_nil _).symm)
    rintro c rfl
    cases callee with
    | function id =>
      cases hf
      exact hr.inv.functions id
    | _ => cases hf
  | closure =>
    obtain ⟨hinv, hvs, hfits⟩ := hr
    exact .of_first ⟨hinv, hvs, hfits _ rfl⟩ (List.append_nil _).symm
  | @initializer fuel c init _ _ arguments m _ _ hi hinit hbound =>
    obtain ⟨hinv, harity, -⟩ := hr
    cases hi
    cases hbound
    have hsame : m.heap.initializer? c = some init := hinit
    have hmade : Inv vs before (m.heap.newInstance c).2 m.locals :=
      hinv.congr rfl rfl fun _ => rfl
    obtain ⟨hbound, hfits⟩ := hmade.bindReceiver (i := m.heap.instances.size)
      (hmade.findMethod? hinit)
    have harity' : arguments.length = init.decl.arity := by
      rw [harity, Heap.arity, hsame]
      rfl
    exact .of_last ⟨hbound, harity', hfits⟩ (constructEvents_of_initializer? arguments hsame)
  | @closureBody _ c _ m =>
    obtain ⟨hinv, harity, hfits⟩ := hr
    refine .of_last ⟨hinv.newFrame _ (.call c.decl) c.chain, ?_⟩ rfl
    rcases hfits with ⟨-, hnil, -⟩ | ⟨cls, layers, hmatches, hsettled, hwf, hvisits, -⟩
    · exact .inl hnil
    · obtain ⟨⟨name, params, body⟩, chain, init⟩ := c
      have hsettled' : Walk.Settled (.call ⟨name, params, body⟩ :: layers) := by
        simp [Walk.Settled, Layer.call]
      exact .inr ⟨cls, _, hwf.2.2, hvisits, hsettled',
        hmatches.push hsettled (callFrame_serves harity)⟩
  | topLevel =>
    obtain ⟨hinv, hwf, hvs, hmatches⟩ := hr
    exact .of_first ⟨hinv, .outside, [], hwf.1, (List.forall_mem_append.1 hvs).1,
      by simp [Walk.Settled], hmatches⟩ rfl
  | @laterProgram fuel s _ _ m _ h =>
    obtain ⟨hinv, hwf, hvs, hmatches⟩ := hr
    obtain ⟨hfirst, hrest⟩ := List.forall_mem_append.1 hvs
    have hsafe := (safe_evaluate_execute vs fuel).2 s .outside [] m before hwf.1 hfirst
      (by simp [Walk.Settled]) .nowhere ⟨hinv, hmatches, .nowhere⟩
    obtain ⟨hmoves, -⟩ := hsafe.of_ok h
    have htop : Layers.after [] s = [] := by
      unfold Layers.after
      split <;> rfl
    rw [htop] at hrest
    exact .of_last ⟨hmoves.inv, hwf.2, hrest, hmoves.matches_chain hmatches⟩
      (Trace.andThen_of_ok _ _ h)

/-- All runs inside the run of a program are at code, each behind a part of what happens, and with
what happens in it as the next part. -/
theorem placed_of_active {start : Run} {outer : List Run} (h : start.Active (r :: outer))
    (hstart : start.Placed vs before) :
    ∃ mid rest, r.Placed vs (before ++ mid) ∧ start.events = mid ++ (r.events ++ rest) := by
  induction h using Active.stack_induction with
  | start =>
    exact Follows.of_first hstart (List.append_nil _).symm
  | begin h hbegins ih =>
    obtain ⟨mid, rest, hplaced, hevents⟩ := ih
    obtain ⟨mid', rest', hplaced', hevents'⟩ := follows_of_begins hbegins hplaced
    rw [List.append_assoc] at hplaced'
    refine ⟨mid ++ mid', rest' ++ rest, hplaced', ?_⟩
    rw [hevents, hevents']
    simp only [List.append_assoc]

end Run

end Lox
