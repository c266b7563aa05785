import Lox.Proofs.Machine.References

/-!
# Running a program whose names are bound

Every expression and statement of a program whose names are bound runs safely, whatever the
fuel: from a machine that is at its code, it does no more than a safe step may do, and behind a
statement that reaches its end the machine is at the code behind it.
-/

namespace Lox

open Exec

variable {chain : Chain} {arguments : List Value} {v : Value} {c : Closure} {name op : Token}
  {fault : RuntimeFault}

/-- Expressions run safely. -/
def EvaluatesSafely [Vacancy] (vs : List Visit) (eval : Expr → Exec Value)
    (events : Expr → Events) : Prop :=
  ∀ (e : Expr) (cls : ClassRole) (layers : List Layer) (m : Machine) (before : List Event),
    e.WellFormed → (∀ v ∈ e.visits cls layers, v ∈ vs) → Situated vs before m layers →
      Safe vs before m (eval e) (events e m) fun _ _ _ => True

/-- Statements do not declare the name that the innermost frame is to do without. -/
def Spares [Vacancy] (m : Machine) (ss : List Stmt) : Prop :=
  ∀ p ∈ Vacancy.place?, m.chain.head? = some p.1 → ∀ s ∈ ss, ∀ t ∈ s.declared?, t.lexeme ≠ p.2

theorem Spares.nowhere {m : Machine} {ss : List Stmt} : Spares m ss := fun _ hp => by cases hp

/-- Statements run safely, and a statement that reaches its end leaves a machine that is at the
code behind it. -/
def ExecutesSafely [Vacancy] (vs : List Visit) (exec : Stmt → Exec Completion)
    (events : Stmt → Events) : Prop :=
  ∀ (s : Stmt) (cls : ClassRole) (layers : List Layer) (m : Machine) (before : List Event),
    s.WellFormed → (∀ v ∈ s.visits cls layers, v ∈ vs) → Walk.Settled layers → Spares m [s] →
      Situated vs before m layers →
        Safe vs before m (exec s) (events s m) fun completion m' after =>
          match completion with
          | .normal => Matches m'.heap.frames after (Layers.after layers s) m'.chain
          | .returned _ => True

section

variable [Vacancy] {vs : List Visit} {before : List Event} {m : Machine} {layers : List Layer}
  {cls : ClassRole} {eval : Expr → Exec Value} {evalEvents : Expr → Events}
  {exec : Stmt → Exec Completion} {execEvents : Stmt → Events}

/-! ## Sequences -/

theorem safe_evaluateAll (heval : EvaluatesSafely vs eval evalEvents) (es : List Expr)
    (hes : Exprs.WellFormed es) (hvs : ∀ v ∈ Exprs.visits cls layers es, v ∈ vs)
    (h : Situated vs before m layers) :
    Safe vs before m (evaluateAll eval es) (evaluateAllTrace eval evalEvents es m)
      fun _ _ _ => True := by
  induction es generalizing m before with
  | nil => exact Safe.pure h.inv trivial
  | cons e es ih =>
    have he := heval e cls layers m before hes.1 (fun v hv => hvs v (List.mem_append_left _ hv)) h
    refine he.bind fun a m' between hmoves _ => ?_
    have htail := ih hes.2 (fun v hv => hvs v (List.mem_append_right _ hv)) (h.moves hmoves)
    exact htail.bind_silent fun as m' between hmoves _ => Safe.pure hmoves.inv trivial

theorem Spares.cons {s : Stmt} {ss : List Stmt} (h : Spares m (s :: ss)) :
    Spares m [s] ∧ Spares m ss := by
  refine ⟨fun p hp hhead => ?_, fun p hp hhead => (List.forall_mem_cons.1 (h p hp hhead)).2⟩
  simpa using (List.forall_mem_cons.1 (h p hp hhead)).1

theorem safe_executeAll (hexec : ExecutesSafely vs exec execEvents) (ss : List Stmt)
    (hss : Stmts.WellFormed ss) (hvs : ∀ v ∈ Stmts.visits cls layers ss, v ∈ vs)
    (hsettled : Walk.Settled layers) (hspares : Spares m ss) (h : Situated vs before m layers) :
    Safe vs before m (executeAll exec ss) (executeAllTrace exec execEvents ss m)
      fun _ _ _ => True := by
  induction ss generalizing layers m before with
  | nil => exact Safe.pure h.inv trivial
  | cons s ss ih =>
    have hs := hexec s cls layers m before hss.1 (fun v hv => hvs v (List.mem_append_left _ hv))
      hsettled hspares.cons.1 h
    refine hs.bind fun completion m' between hmoves hcompletion => ?_
    cases completion with
    | normal =>
      have hsettled' := Walk.settled_after hsettled (s := s)
      exact ih hss.2 (fun v hv => hvs v (List.mem_append_right _ hv)) hsettled'
        (by rw [Spares, hmoves.chain]; exact hspares.cons.2)
        ⟨hmoves.inv, hcompletion, .of_settled hsettled'⟩
    | returned a => exact Safe.pure hmoves.inv trivial

/-- Statements in a frame that is made for their scope. -/
theorem safe_executeInFrame (hexec : ExecutesSafely vs exec execEvents) {l : Layer} {frame : Frame}
    {body : List Stmt} (h : Inv vs before m.heap m.locals)
    (hmatches : Matches m.heap.frames before layers chain) (hsettled : Walk.Settled layers)
    (hserves : frame.Serves l) (hl : l.pending = none) (hbody : Stmts.WellFormed body)
    (hvs : ∀ v ∈ Stmts.visits cls (l :: layers) body, v ∈ vs) :
    Safe vs before m (executeInFrame exec frame chain body)
      (executeInFrameTrace .frames exec execEvents l.region frame chain body m)
      fun _ _ _ => True := by
  have hopen : Safe vs before m (withHeap fun h => h.newFrame frame)
      (Labels.frames.opened l.region chain m) fun id m' after => id = m.heap.frames.size ∧
        Matches m'.heap.frames after (l :: layers) (id :: chain) :=
    Safe.withHeap (h.newFrame _ _ _) (Frames.extends_push _ _) ⟨rfl, hmatches.push hsettled hserves⟩
  refine hopen.bind fun id m' between hmoves hid => Safe.inChain ?_
  have hsettled' : Walk.Settled (l :: layers) := by simpa [Walk.Settled] using hl
  -- the frame is a new one, and so not the one that is watched
  have hspares : Spares { m' with chain := id :: chain } body := by
    intro p hp hhead
    obtain rfl : id = p.1 := Option.some.inj hhead
    exact absurd (h.vacant p hp).1 (by rw [hid.1]; exact Nat.lt_irrefl _)
  exact safe_executeAll hexec body hbody hvs hsettled' hspares
    ⟨hmoves.inv, hid.2, .of_settled hsettled'⟩

/-! ## Calls -/

omit [Vacancy] in
theorem get?_foldl_insert (ps : List (Token × Value)) (frame : Frame) (x : String)
    (h : (frame.get? x).isSome ∨ ∃ p ∈ ps, p.1.lexeme = x) :
    (Table.get? (ps.foldl (fun frame p => frame.insert p.1.lexeme p.2) frame) x).isSome := by
  induction ps generalizing frame with
  | nil => simpa using h
  | cons p ps ih =>
    refine ih _ ?_
    rw [Table.get?_insert]
    by_cases hx : x = p.1.lexeme
    · simp [hx]
    · rw [if_neg hx]
      simpa [Ne.symm hx] using h

omit [Vacancy] in
/-- The frame of a block need not have any name at first. -/
theorem block_serves (body : List Stmt) : Frame.Serves ∅ (.block body) :=
  ⟨by simp [Layer.block], nofun, nofun⟩

omit [Vacancy] in
/-- The values in the frame of a call are arguments. -/
theorem mem_of_mem_callFrame {params : List Token} (h : v ∈ (callFrame params arguments).values) :
    v ∈ arguments := by
  rcases Table.mem_values_foldl_insert h with h | ⟨p, hp, rfl⟩
  · cases h
  · exact (List.of_mem_zip hp).2

omit [Vacancy] in
/-- The frame of a call has the parameters. -/
theorem callFrame_serves {f : FunctionDecl} (h : arguments.length = f.params.length) :
    Frame.Serves (callFrame f.params arguments) (.call f) := by
  refine ⟨fun x hx _ => get?_foldl_insert _ _ x (.inr ?_), nofun, nofun⟩
  obtain ⟨p, hp, rfl⟩ : ∃ p ∈ f.params, p.lexeme = x := by simpa [Layer.call] using hx
  obtain ⟨i, hi, rfl⟩ := List.mem_iff_getElem.1 hp
  have hi' : i < (f.params.zip arguments).length := by
    rw [List.length_zip]
    omega
  exact ⟨(f.params.zip arguments)[i], List.getElem_mem hi', by simp⟩

/-- A call without statements runs in any chain. -/
theorem safe_executeInFrame_nil {region : Region} {frame : Frame}
    (h : Inv vs before m.heap m.locals) : Safe vs before m (executeInFrame exec frame chain [])
      (executeInFrameTrace .frames exec execEvents region frame chain [] m) fun _ _ _ => True := by
  have hopen : Safe vs before m (withHeap fun h => h.newFrame frame)
      (Labels.frames.opened region chain m) fun _ _ _ => True :=
    Safe.withHeap (h.newFrame _ _ _) (Frames.extends_push _ _) trivial
  exact hopen.bind fun id m' between hmoves _ => Safe.inChain (Safe.pure hmoves.inv trivial)

omit [Vacancy] in
/-- An initializer finds its receiver in the chain that it sees. -/
theorem Closure.Fits.getAt_this {frames : Frames} (hc : c.Fits vs frames before)
    (hinit : c.isInitializer = true) : ∃ a, frames.getAt c.chain 0 "this" = .ok a := by
  rcases hc with ⟨-, -, hfalse⟩ | ⟨cls, layers, hmatches, -, -, -, hlayers⟩
  · simp [hinit] at hfalse
  · obtain ⟨method, outer, rfl⟩ := hlayers hinit
    obtain ⟨id, hid, hserves, -⟩ := hmatches.exists_getElem? (d := 0) rfl
    obtain ⟨i, hi⟩ := hserves.receiver method rfl
    exact ⟨_, Frames.getAt_of_get? hid hi⟩

/-- The body of a closure runs in a frame for the call, in front of the chain that the closure
sees. -/
theorem safe_runClosure (hexec : ExecutesSafely vs exec execEvents)
    (h : Inv vs before m.heap m.locals) (hc : c.Fits vs m.heap.frames before)
    (harity : arguments.length = c.decl.arity) :
    Safe vs before m (runClosure exec c arguments)
      (runClosureTrace .frames exec execEvents c arguments m) fun _ _ _ => True := by
  have hbody : Safe vs before m
      (executeInFrame exec (callFrame c.decl.params arguments) c.chain c.decl.body)
      (runClosureTrace .frames exec execEvents c arguments m) fun _ _ _ => True := by
    unfold runClosureTrace
    rcases hc with ⟨-, hnil, -⟩ | ⟨cls, layers, hmatches, hsettled, hwf, hvisits, -⟩
    · rw [hnil]
      exact safe_executeInFrame_nil h
    · obtain ⟨⟨name, params, body⟩, chain, init⟩ := c
      exact safe_executeInFrame hexec h hmatches hsettled (callFrame_serves harity) rfl hwf.2.2
        hvisits
  refine hbody.bind_silent fun completion m' between hmoves _ => ?_
  cases hinit : c.isInitializer with
  | true =>
    obtain ⟨a, ha⟩ := (hc.mono hmoves.frames hmoves.events).getAt_this hinit
    refine Safe.get_bind ?_
    rw [ha]
    exact Safe.pure hmoves.inv trivial
  | false =>
    cases completion with
    | normal => exact Safe.pure hmoves.inv trivial
    | returned a => exact Safe.pure hmoves.inv trivial

/-- An initializer runs with its receiver in the frame around its own. -/
theorem safe_construct (hexec : ExecutesSafely vs exec execEvents) {c : ClassId}
    (h : Inv vs before m.heap m.locals) (harity : arguments.length = m.heap.arity (.constructor c)) :
    Safe vs before m (construct exec c arguments)
      (constructTrace .frames exec execEvents c arguments m) fun _ _ _ => True := by
  have hnew : Safe vs before m (withHeap fun h => h.newInstance c) []
      fun _ m' after => m'.heap.initializer? c = m.heap.initializer? c ∧ after = before := by
    refine Safe.withHeap ?_ (.refl _) ?_
    · rw [List.append_nil]
      exact h.congr rfl rfl fun _ => rfl
    · rw [List.append_nil]
      exact ⟨rfl, rfl⟩
  refine hnew.silent_bind fun i m' between hmoves hinit => Safe.get_bind ?_
  cases hc : m'.heap.initializer? c with
  | none => exact Safe.pure hmoves.inv trivial
  | some init =>
    have hfits : init.FitsMethod vs m'.heap.frames between := hmoves.inv.findMethod? hc
    obtain ⟨hinv, hbound⟩ := hmoves.inv.bindReceiver (i := i) hfits
    have hbind : Safe vs between m' (withHeap fun h => h.bindReceiver init (.instance_ i))
        (Labels.frames.opened (.receiver init.decl) init.chain m')
        fun bound m'' after => bound.Fits vs m''.heap.frames after ∧ bound.decl = init.decl :=
      Safe.withHeap hinv (Frames.extends_push _ _) ⟨hbound, rfl⟩
    refine hbind.bind fun bound m'' after hmoves' hbound => ?_
    have harity' : arguments.length = bound.decl.arity := by
      rw [harity, hbound.2, Heap.arity, ← hinit.1, hc]
      rfl
    exact (safe_runClosure hexec hmoves'.inv hbound.1 harity').bind_silent
      fun _ _ _ hmoves _ => Safe.pure hmoves.inv trivial

/-- A function that is called fits its chain, for all functions on the heap do. -/
theorem safe_callValue (hexec : ExecutesSafely vs exec execEvents) {callee : Value} {paren : Token}
    (h : Inv vs before m.heap m.locals) : Safe vs before m (callValue exec callee paren arguments)
      (callValueTrace .frames exec execEvents callee arguments m) fun _ _ _ => True := by
  refine Safe.get_bind ?_
  unfold callValueTrace
  cases hcallee : m.heap.callable? callee with
  | none => exact Safe.fail h ⟨rfl, nofun⟩
  | some f =>
    by_cases harity : arguments.length = m.heap.arity f
    · by_cases hdepth : maxCallDepth ≤ m.depth
      · simp only [harity, ne_eq, not_true_eq_false, if_false, hdepth, if_true]
        exact Safe.fail h ⟨rfl, nofun⟩
      · simp only [harity, ne_eq, not_true_eq_false, if_false, hdepth]
        refine Safe.nested ?_
        cases f with
        | closure c =>
          have hc : c.Fits vs m.heap.frames before := by
            cases callee with
            | function id =>
              obtain rfl := Callable.closure.inj (Option.some.inj hcallee)
              exact h.functions id
            | _ => cases hcallee
          exact safe_runClosure hexec h hc harity
        | native f =>
          cases f with
          | clock => exact Safe.readClock h
          | printNative =>
            have hwrite : Safe vs before { m with depth := m.depth + 1 }
                (writeLine (arguments.headD .nil)) [] fun _ _ _ => True := Safe.writeLine h
            exact hwrite.bind_silent fun _ _ _ hmoves _ => Safe.pure hmoves.inv trivial
        | constructor c => exact safe_construct hexec h harity
    · simp only [harity, ne_eq, not_false_eq_true, if_true]
      exact Safe.fail h ⟨rfl, nofun⟩

/-! ## Classes -/

theorem safe_superclassOf (heval : EvaluatesSafely vs eval evalEvents) {superclass : Option Expr}
    (hwf : Expr.SuperclassWellFormed superclass)
    (hvs : ∀ v ∈ Expr.optionVisits cls layers superclass, v ∈ vs) (h : Situated vs before m layers) :
    Safe vs before m (superclassOf eval name superclass) (superclassTrace evalEvents superclass m)
      fun result _ _ => result.isSome = superclass.isSome := by
  cases superclass with
  | none => exact Safe.pure h.inv rfl
  | some e =>
    have he : e.WellFormed := by
      cases e with
      | var id name => exact hwf
      | _ => exact hwf.elim
    refine (heval e cls layers m before he hvs h).bind_silent fun v m' between hmoves _ => ?_
    cases v with
    | class_ c => exact Safe.pure hmoves.inv rfl
    | _ => exact Safe.fail hmoves.inv ⟨rfl, nofun⟩

/-- The chain that the members of a class see. -/
theorem safe_methodChain (decl : ClassDecl) {superclass : Option ClassId}
    (h : Inv vs before m.heap m.locals)
    (hmatches : Matches m.heap.frames before (Layers.declare decl.name.lexeme layers) m.chain)
    (hsuper : superclass.isSome = decl.superclass.isSome) :
    Safe vs before m (methodChain superclass) (methodChainTrace .frames decl superclass m)
      fun chain m' after => Matches m'.heap.frames after (decl.layers layers) chain := by
  refine Safe.get_bind ?_
  unfold ClassDecl.layers methodChainTrace
  cases superclass with
  | none =>
    cases hs : decl.superclass with
    | none => exact Safe.pure h hmatches
    | some e => simp [hs] at hsuper
  | some c =>
    cases hs : decl.superclass with
    | none => simp [hs] at hsuper
    | some e =>
      have hserves : Frame.Serves ((∅ : Frame).insert "super" (.class_ c)) (.superclass decl) :=
        ⟨by simp [Layer.superclass], nofun, fun _ _ => ⟨c, Table.get?_insert_self _ _ _⟩⟩
      have hopen : Safe vs before m
          (withHeap fun h => h.newFrame ((∅ : Frame).insert "super" (.class_ c)))
          (Labels.frames.opened (.superclass decl) m.chain m)
          fun id m' after => Matches m'.heap.frames after
            (.superclass decl :: Layers.declare decl.name.lexeme layers) (id :: m.chain) :=
        Safe.withHeap (h.newFrame _ _ _) (Frames.extends_push _ _)
          (hmatches.push Walk.settled_declare hserves)
      exact hopen.bind_silent fun id m' between hmoves hid => Safe.pure hmoves.inv hid

omit [Vacancy] in
theorem settled_classLayers (decl : ClassDecl) (layers : List Layer) :
    Walk.Settled (decl.layers layers) := by
  unfold ClassDecl.layers
  split
  · exact Walk.settled_declare
  · simp [Walk.Settled, Layer.superclass]

theorem safe_staticTable (ds : List FunctionDecl) {fields : Table Value}
    (hds : FunctionDecls.WellFormed ds) (hsettled : Walk.Settled layers)
    (hvs : ∀ v ∈ FunctionDecls.staticVisits layers ds, v ∈ vs) (h : Inv vs before m.heap m.locals)
    (hmatches : Matches m.heap.frames before layers chain) :
    Safe vs before m (staticTable chain ds fields) [] fun _ _ _ => True := by
  induction ds generalizing m before fields with
  | nil => exact Safe.pure h trivial
  | cons d ds ih =>
    have hfits : Closure.Fits vs m.heap.frames before ⟨d, chain, false⟩ :=
      .inr ⟨.static, layers, hmatches, hsettled, hds.1,
        fun v hv => hvs v (List.mem_append_left _ hv), nofun⟩
    have hnew : Safe vs before m (withHeap fun h => h.newFunction ⟨d, chain, false⟩) []
        fun _ _ _ => True := by
      refine Safe.withHeap ?_ (.refl _) trivial
      rw [List.append_nil]
      exact h.newFunction hfits
    exact hnew.bind_silent fun f m' between hmoves _ =>
      ih hds.2 (fun v hv => hvs v (List.mem_append_right _ hv)) hmoves.inv (hmoves.matches hmatches)

omit [Vacancy] in
/-- Every method of a class is one that it declares. -/
theorem get?_methodTable {ds : List FunctionDecl} {name : String}
    (h : (methodTable chain ds).get? name = some c) :
    c.chain = chain ∧ c.decl ∈ ds ∧ c.isInitializer = c.decl.isInitializer := by
  let Declared (c : Closure) : Prop :=
    c.chain = chain ∧ c.decl ∈ ds ∧ c.isInitializer = c.decl.isInitializer
  have hall : ∀ (t : Table Closure), (∀ x c, t.get? x = some c → Declared c) →
      ∀ ds' ⊆ ds, ∀ x c, (ds'.foldl
        (fun t d => t.insert d.name.lexeme ⟨d, chain, d.isInitializer⟩) t).get? x = some c →
          Declared c := by
    intro t ht ds' hds'
    induction ds' generalizing t with
    | nil => exact ht
    | cons d ds' ih =>
      refine ih _ (fun x c hc => ?_) fun d' hd' => hds' (List.mem_cons_of_mem _ hd')
      rw [Table.get?_insert] at hc
      split at hc
      · obtain rfl := Option.some.inj hc
        exact ⟨rfl, hds' (List.mem_cons_self ..), rfl⟩
      · exact ht x c hc
  exact hall ∅ (by simp) ds (fun _ h => h) name c h

/-- A name that the innermost frame of a chain has is overwritten there. -/
theorem safe_assign_head (h : Situated vs before m layers) (hname : name.IsName)
    (hget : ∀ id ∈ m.chain.head?, ((m.heap.frames.frame id).get? name.lexeme).isSome) :
    Safe vs before m (assign m.chain name v) [] fun _ _ _ => True := by
  obtain ⟨id, outer, hchain, hid⟩ := h.fits.exists_head
  have hhead := hget id (by simp [hchain])
  refine Safe.get_bind ?_
  simp only [hchain, Frames.holder, Table.contains, hhead, if_true]
  have hnew : ∀ p ∈ Vacancy.place?, id = p.1 → name.lexeme ≠ p.2 := by
    rintro p hp rfl heq
    rw [heq, (h.inv.vacant p hp).2.2] at hhead
    cases hhead
  exact (Safe.defineIn h.inv hid hname hnew).mono fun _ _ _ _ _ => trivial

/-- The name that a statement declares is not the one that the innermost frame is to do without. -/
theorem Spares.of_declared {s : Stmt} (h : Spares m [s]) (hs : s.declared? = some name) :
    ∀ p ∈ Vacancy.place?, m.chain.head? = some p.1 → name.lexeme ≠ p.2 := by
  intro p hp hhead
  exact h p hp hhead s (List.mem_singleton_self s) name hs

/-- The name that a statement declares waits for its initializer. -/
theorem Situated.await (h : Situated vs before m layers) (hsettled : Walk.Settled layers)
    (hnew : ∀ p ∈ Vacancy.place?, m.chain.head? = some p.1 → name.lexeme ≠ p.2) :
    Situated vs before m (Layers.await name.lexeme layers) := by
  refine ⟨h.inv, h.fits.await hsettled _, fun p hp hhead l hl => ?_⟩
  cases layers with
  | nil => cases hl
  | cons l' outer =>
    obtain rfl := Option.some.inj hl
    exact fun heq => hnew p hp hhead (Option.some.inj heq)

/-- The name is defined before the methods are made, so that they see it. -/
theorem safe_declareClass (heval : EvaluatesSafely vs eval evalEvents) {decl : ClassDecl}
    (hwf : (Stmt.classDecl decl).WellFormed)
    (hvs : ∀ v ∈ (Stmt.classDecl decl).visits cls layers, v ∈ vs)
    (hsettled : Walk.Settled layers) (hspares : Spares m [.classDecl decl])
    (h : Situated vs before m layers) :
    Safe vs before m (declareClass eval decl) (declareClassTrace .frames eval evalEvents decl m)
      fun _ m' after =>
        Matches m'.heap.frames after (Layers.declare decl.name.lexeme layers) m'.chain := by
  obtain ⟨name, superclass, methods, statics⟩ := decl
  obtain ⟨hname, hsuper, hmethods, hstatics⟩ := hwf
  have hnew := hspares.of_declared rfl
  have hawait := h.await hsettled hnew
  refine (safe_superclassOf heval hsuper (fun v hv => hvs v (List.mem_append_left _ hv))
    hawait).bind fun super m₁ τ₁ hmoves₁ hsome => ?_
  have h₁ := h.moves hmoves₁
  rw [← hmoves₁.chain] at hnew
  refine (Safe.define h₁.inv h₁.fits hname hnew).silent_bind fun _ m₂ τ₂ hmoves₂ hget => ?_
  have hdeclared := (hmoves₂.matches_chain h₁.fits).declare hsettled hget
  refine (safe_methodChain ⟨name, superclass, methods, statics⟩ hmoves₂.inv hdeclared
    hsome).bind fun chain m₃ τ₃ hmoves₃ hchain => ?_
  have hlayers := settled_classLayers ⟨name, superclass, methods, statics⟩ layers
  refine (safe_staticTable statics hstatics hlayers
    (fun v hv => hvs v (List.mem_append_right _ (List.mem_append_left _ hv)))
    hmoves₃.inv hchain).silent_bind fun fields m₄ τ₄ hmoves₄ _ => ?_
  have hfits : ∀ x c, (methodTable chain methods).get? x = some c →
      c.FitsMethod vs m₄.heap.frames τ₄ := by
    intro x c hc
    obtain ⟨rfl, hmem, -⟩ := get?_methodTable hc
    refine ⟨ClassDecl.role ⟨name, superclass, methods, statics⟩, _, hmoves₄.matches hchain, hlayers,
      FunctionDecls.wellFormed_iff.1 hmethods _ hmem, fun v hv => hvs v ?_⟩
    exact List.mem_append_right _ (List.mem_append_right _
      (FunctionDecls.mem_methodVisits.2 ⟨_, hmem, hv⟩))
  have hclass : Safe vs τ₄ m₄ (withHeap fun h => h.newClass
      { name := name.lexeme
        ancestors := (super.map h.lineage).getD []
        methods := methodTable chain methods
        fields := fields }) [] fun _ _ _ => True := by
    refine Safe.withHeap ?_ (.refl _) trivial
    rw [List.append_nil]
    exact hmoves₄.inv.newClass hfits
  refine hclass.bind_silent fun c m₅ τ₅ hmoves₅ _ => Safe.get_bind ?_
  have hmoves := (hmoves₃.trans hmoves₄).trans hmoves₅
  have hget₅ : ∀ id ∈ m₅.chain.head?, ((m₅.heap.frames.frame id).get? name.lexeme).isSome := by
    intro id hid
    rw [hmoves.chain] at hid
    obtain ⟨id', outer, hhead, hlt⟩ := hdeclared.exists_head
    obtain rfl : id' = id := by simpa [hhead] using hid
    exact hmoves.frames.bound id' hlt _ (hget id' (by simp [hhead]))
  have h₅ : Situated vs τ₅ m₅ (Layers.declare name.lexeme layers) :=
    ⟨hmoves₅.inv, hmoves.matches_chain hdeclared, .of_settled Walk.settled_declare⟩
  exact (safe_assign_head h₅ hname hget₅).mono fun _ _ _ hmoves _ => hmoves.matches_chain h₅.fits

/-! ## Operators -/

omit [Vacancy] in
/-- A fault of an operator that is one: its operands do not suit it. -/
theorem numericOperands_error {a b : Value} (h : numericOperands op a b = .error fault) :
    fault = .numericOperands op.lexeme a.type b.type := by
  unfold numericOperands at h
  split at h
  · cases h
  · exact (Except.error.inj h).symm

omit [Vacancy] in
theorem applyUnary_error (hop : op.is .bang = true ∨ op.is .minus = true)
    (h : applyUnary op v = .error fault) : fault.Ordinary := by
  unfold applyUnary at h
  rcases hop with hop | hop
  · rw [Token.Kind.is_iff.1 hop] at h
    cases h
  · rw [Token.Kind.is_iff.1 hop] at h
    cases v with
    | number x => cases h
    | _ =>
      obtain rfl := Except.error.inj h
      exact ⟨rfl, nofun⟩

omit [Vacancy] in
theorem addition_error {a b : Value} (h : addition a b = .error fault) : fault.Ordinary := by
  unfold addition at h
  split at h
  · cases h
  · cases h
  · obtain rfl := Except.error.inj h
    exact ⟨rfl, nofun⟩

omit [Vacancy] in
theorem applyBinary_error {a b : Value} (hop : op.IsBinaryOperator)
    (h : applyBinary op a b = .error fault) : fault.Ordinary := by
  have hnumeric : ∀ g : Float × Float → Value,
      (do let p ← numericOperands op a b; .ok (g p)) = .error fault → fault.Ordinary := by
    intro g hg
    cases hn : numericOperands op a b with
    | error fault' =>
      rw [hn] at hg
      obtain rfl := Except.error.inj hg
      rw [numericOperands_error hn]
      exact ⟨rfl, nofun⟩
    | ok p =>
      rw [hn] at hg
      cases hg
  simp only [Token.IsBinaryOperator, List.any_cons, List.any_nil, Bool.or_eq_true,
    Bool.false_eq_true, or_false] at hop
  unfold applyBinary at h
  rcases hop with hop | hop | hop | hop | hop | hop | hop | hop | hop | hop
  all_goals rw [Token.Kind.is_iff.1 hop] at h
  case inl => cases h
  case inr.inl => cases h
  case inr.inr.inr.inr.inr.inr.inr.inl => exact addition_error h
  all_goals exact hnumeric _ h

end

/-! ## Expressions and statements -/

section

variable [Vacancy] {vs : List Visit} {fuel : Nat}
variable {layers : List Layer} {m : Machine} {before : List Event}

/-- One amount of fuel more: expressions. -/
theorem evaluatesSafely_succ
    (heval : EvaluatesSafely vs (evaluate fuel) (evaluateTrace .frames fuel))
    (hexec : ExecutesSafely vs (execute fuel) (executeTrace .frames fuel)) :
    EvaluatesSafely vs (evaluate (fuel + 1)) (evaluateTrace .frames (fuel + 1)) := by
  intro e cls layers m before hwf hvs h
  cases e with
  | literal l => exact Safe.pure h.inv trivial
  | grouping inner => exact heval inner cls layers m before hwf hvs h
  | unary op operand =>
    refine (heval operand cls layers m before hwf.2 hvs h).bind_silent fun v m' τ hmoves _ => ?_
    exact Safe.ofExcept hmoves.inv (fun _ _ => trivial) fun _ hf => applyUnary_error hwf.1 hf
  | binary left op right =>
    have hleft := heval left cls layers m before hwf.2.1
      (fun v hv => hvs v (List.mem_append_left _ hv)) h
    refine hleft.bind fun a m₁ τ₁ hmoves₁ _ => ?_
    have hright := heval right cls layers m₁ τ₁ hwf.2.2
      (fun v hv => hvs v (List.mem_append_right _ hv)) (h.moves hmoves₁)
    refine hright.bind_silent fun b m₂ τ₂ hmoves₂ _ => ?_
    exact Safe.ofExcept hmoves₂.inv (fun _ _ => trivial) fun _ hf => applyBinary_error hwf.1 hf
  | logical left op right =>
    have hleft := heval left cls layers m before hwf.1
      (fun v hv => hvs v (List.mem_append_left _ hv)) h
    refine hleft.bind fun a m₁ τ₁ hmoves₁ _ => ?_
    split
    · exact Safe.pure hmoves₁.inv trivial
    · exact heval right cls layers m₁ τ₁ hwf.2 (fun v hv => hvs v (List.mem_append_right _ hv))
        (h.moves hmoves₁)
  | conditional c a b =>
    have hc := heval c cls layers m before hwf.1 (fun v hv => hvs v (List.mem_append_left _ hv)) h
    refine hc.bind fun v m₁ τ₁ hmoves₁ _ => ?_
    have hrest : ∀ v ∈ a.visits cls layers ++ b.visits cls layers, v ∈ vs :=
      fun v hv => hvs v (List.mem_append_right _ hv)
    split
    · exact heval a cls layers m₁ τ₁ hwf.2.1 (fun v hv => hrest v (List.mem_append_left _ hv))
        (h.moves hmoves₁)
    · exact heval b cls layers m₁ τ₁ hwf.2.2 (fun v hv => hrest v (List.mem_append_right _ hv))
        (h.moves hmoves₁)
  | var id name =>
    let v : Visit := ⟨id, name.lexeme, .read, cls, layers⟩
    exact safe_lookUp (v := v) h (hvs v (List.mem_singleton.2 rfl)) rfl (.inl rfl)
  | assign id name value =>
    have hvalue := heval value cls layers m before hwf.2
      (fun v hv => hvs v (List.mem_append_left _ hv)) h
    refine hvalue.bind fun a m₁ τ₁ hmoves₁ _ => ?_
    let v : Visit := ⟨id, name.lexeme, .write, cls, layers⟩
    have hv : v ∈ vs := hvs v (List.mem_append_right _ (List.mem_singleton.2 rfl))
    exact (safe_overwrite (v := v) (h.moves hmoves₁) hv rfl hwf.1).bind_silent
      fun _ _ _ hmoves _ => Safe.pure hmoves.inv trivial
  | call callee paren arguments =>
    have hcallee := heval callee cls layers m before hwf.1
      (fun v hv => hvs v (List.mem_append_left _ hv)) h
    refine hcallee.bind fun f m₁ τ₁ hmoves₁ _ => ?_
    have harguments := safe_evaluateAll heval arguments hwf.2
      (fun v hv => hvs v (List.mem_append_right _ hv)) (h.moves hmoves₁)
    exact harguments.bind fun as m₂ τ₂ hmoves₂ _ => safe_callValue hexec hmoves₂.inv
  | get object name =>
    exact (heval object cls layers m before hwf hvs h).bind
      fun v m₁ τ₁ hmoves₁ _ => safe_getProperty hmoves₁.inv
  | set object name value =>
    have hobject := heval object cls layers m before hwf.1
      (fun v hv => hvs v (List.mem_append_right _ hv)) h
    refine hobject.bind fun v m₁ τ₁ hmoves₁ _ => safe_setProperty hmoves₁.inv ?_
    exact heval value cls layers m₁ τ₁ hwf.2 (fun v hv => hvs v (List.mem_append_left _ hv))
      (h.moves hmoves₁)
  | thisRef id keyword =>
    let v : Visit := ⟨id, keyword.lexeme, .receiver, cls, layers⟩
    exact safe_lookUp (v := v) h (hvs v (List.mem_singleton.2 rfl)) rfl (.inr ⟨rfl, hwf⟩)
  | superRef id keyword method =>
    let v : Visit := ⟨id, keyword.lexeme, .superclass, cls, layers⟩
    exact safe_superMember (v := v) h (hvs v (List.mem_singleton.2 rfl)) rfl hwf rfl

omit [Vacancy] in
/-- A statement that ends with a name in the innermost frame. -/
theorem matches_after {s : Stmt} {events : List Event} (hs : s.declared? = some name)
    (h : Matches m.heap.frames events (Layers.declare name.lexeme layers) m.chain) :
    Matches m.heap.frames events (Layers.after layers s) m.chain := by
  rw [Layers.after, hs]
  exact h

/-- A function declaration. The function sees its own name, so it fits only when the name is in
the frame. -/
theorem safe_declareFunction {decl : FunctionDecl} {cls : ClassRole} (hwf : decl.WellFormed)
    (hvs : ∀ v ∈ decl.visits cls (Layers.declare decl.name.lexeme layers), v ∈ vs)
    (hsettled : Walk.Settled layers) (hspares : Spares m [.funDecl decl])
    (h : Situated vs before m layers) : Safe vs before m
      (do
        let f ← withHeap fun h => h.newFunction ⟨decl, m.chain, false⟩
        define decl.name.lexeme (.function f)) []
      fun _ m' after =>
        Matches m'.heap.frames after (Layers.declare decl.name.lexeme layers) m'.chain := by
  obtain ⟨id, outer, hchain, hid⟩ := h.fits.exists_head
  have hname := hwf.isName
  let v : Value := .function m.heap.functions.size
  let heap : Heap := { m.heap with frames := m.heap.frames.define id decl.name.lexeme v }
  have hinv : Inv vs before heap m.locals := h.inv.define v hid hname fun p hp heq =>
    hspares.of_declared rfl p hp (by rw [hchain, heq]; rfl)
  have hframes := Frames.extends_define v hid hname
  have hmatches : Matches heap.frames before (Layers.declare decl.name.lexeme layers) m.chain := by
    refine (h.fits.mono hframes fun _ he => he).declare hsettled fun id' hid' => ?_
    obtain rfl : id = id' := by simpa [hchain] using hid'
    simp [Frames.get?_define decl.name.lexeme decl.name.lexeme v hid]
  have hfits : Closure.Fits vs heap.frames before ⟨decl, m.chain, false⟩ :=
    .inr ⟨cls, _, hmatches, Walk.settled_declare, hwf, hvs, nofun⟩
  have hrun : (do
      let f ← withHeap fun h => h.newFunction ⟨decl, m.chain, false⟩
      define decl.name.lexeme (.function f) : Exec Unit) m =
        .ok () { m with heap := (heap.newFunction ⟨decl, m.chain, false⟩).2 } := by
    obtain ⟨heap, chain, depth, locals, sink, clock⟩ := m
    obtain rfl : chain = id :: outer := hchain
    rfl
  unfold Safe
  rw [hrun]
  simp only [List.append_nil]
  exact ⟨⟨hinv.newFunction hfits, hframes, rfl, rfl, List.prefix_refl _, List.prefix_refl _⟩, hmatches⟩

/-- A branch of a conditional statement, or the body of a loop. -/
theorem ExecutesSafely.branch {exec : Stmt → Exec Completion} {events : Stmt → Events}
    (hexec : ExecutesSafely vs exec events) {s : Stmt} {cls : ClassRole}
    (hs : s.declared? = none ∧ s.WellFormed) (hvs : ∀ v ∈ s.visits cls layers, v ∈ vs)
    (hsettled : Walk.Settled layers) (h : Situated vs before m layers) :
    Safe vs before m (exec s) (events s m) fun completion m' after =>
      match completion with
      | .normal => Matches m'.heap.frames after layers m'.chain
      | .returned _ => True := by
  have hspares : Spares m [s] := fun _ _ _ => by simp [hs.1]
  have hsafe := hexec s cls layers m before hs.2 hvs hsettled hspares h
  rwa [Layers.after, hs.1] at hsafe

/-- One amount of fuel more: statements. -/
theorem executesSafely_succ
    (heval : EvaluatesSafely vs (evaluate fuel) (evaluateTrace .frames fuel))
    (hexec : ExecutesSafely vs (execute fuel) (executeTrace .frames fuel)) :
    ExecutesSafely vs (execute (fuel + 1)) (executeTrace .frames (fuel + 1)) := by
  intro s cls layers m before hwf hvs hsettled hspares h
  cases s with
  | expression e =>
    exact (heval e cls layers m before hwf hvs h).bind_silent
      fun _ _ _ hmoves _ => Safe.pure hmoves.inv (hmoves.matches_chain h.fits)
  | print e =>
    refine (heval e cls layers m before hwf hvs h).bind_silent fun v m₁ τ₁ hmoves₁ _ => ?_
    have h₁ := h.moves hmoves₁
    exact (Safe.writeLine hmoves₁.inv).bind_silent
      fun _ _ _ hmoves _ => Safe.pure hmoves.inv (hmoves.matches_chain h₁.fits)
  | varDecl name value =>
    have hnew := hspares.of_declared rfl
    have hdefine : ∀ (v : Value) (m' : Machine) (before : List Event), m'.chain = m.chain →
        Situated vs before m' layers →
          Safe vs before m' (do define name.lexeme v; pure Completion.normal) []
          fun completion m' after =>
            match completion with
            | .normal =>
              Matches m'.heap.frames after (Layers.after layers (.varDecl name value)) m'.chain
            | .returned _ => True := by
      intro v m' before hchain h
      refine (Safe.define h.inv h.fits hwf.1 (by rwa [hchain])).bind_silent
        fun _ m₁ τ₁ hmoves hget => ?_
      exact Safe.pure hmoves.inv
        (matches_after rfl ((hmoves.matches_chain h.fits).declare hsettled hget))
    cases value with
    | none => exact hdefine .nil m before rfl h
    | some e =>
      exact (heval e cls _ m before hwf.2 hvs (h.await hsettled hnew)).bind_silent
        fun v m₁ τ₁ hmoves _ => hdefine v m₁ τ₁ hmoves.chain (h.moves hmoves)
  | block body =>
    have hbody := safe_executeInFrame hexec h.inv h.fits hsettled (block_serves body) rfl hwf hvs
    refine Safe.get_bind (hbody.mono fun completion m' after hmoves _ => ?_)
    cases completion with
    | normal => exact hmoves.matches_chain h.fits
    | returned v => exact trivial
  | ifThen c a =>
    have hc := heval c cls layers m before hwf.1 (fun v hv => hvs v (List.mem_append_left _ hv)) h
    refine hc.bind fun v m₁ τ₁ hmoves₁ _ => ?_
    split
    · exact hexec.branch hwf.2 (fun v hv => hvs v (List.mem_append_right _ hv)) hsettled
        (h.moves hmoves₁)
    · exact Safe.pure hmoves₁.inv (hmoves₁.matches_chain h.fits)
  | ifElse c a b =>
    have hc := heval c cls layers m before hwf.1 (fun v hv => hvs v (List.mem_append_left _ hv)) h
    refine hc.bind fun v m₁ τ₁ hmoves₁ _ => ?_
    have hrest : ∀ v ∈ a.visits cls layers ++ b.visits cls layers, v ∈ vs :=
      fun v hv => hvs v (List.mem_append_right _ hv)
    split
    · exact hexec.branch hwf.2.1 (fun v hv => hrest v (List.mem_append_left _ hv)) hsettled
        (h.moves hmoves₁)
    · exact hexec.branch hwf.2.2 (fun v hv => hrest v (List.mem_append_right _ hv)) hsettled
        (h.moves hmoves₁)
  | whileLoop c body =>
    have hc := heval c cls layers m before hwf.1 (fun v hv => hvs v (List.mem_append_left _ hv)) h
    refine hc.bind fun v m₁ τ₁ hmoves₁ _ => ?_
    split
    · have hbody := hexec.branch hwf.2 (fun v hv => hvs v (List.mem_append_right _ hv)) hsettled
        (h.moves hmoves₁)
      refine hbody.bind fun completion m₂ τ₂ hmoves₂ hcompletion => ?_
      cases completion with
      | returned v => exact Safe.pure hmoves₂.inv trivial
      | normal =>
        have h₂ : Situated vs τ₂ m₂ layers := ⟨hmoves₂.inv, hcompletion, .of_settled hsettled⟩
        exact hexec (.whileLoop c body) cls layers m₂ τ₂ hwf hvs hsettled
          (fun _ _ _ => by simp [Stmt.declared?]) h₂
    · exact Safe.pure hmoves₁.inv (hmoves₁.matches_chain h.fits)
  | funDecl decl =>
    have hdeclare := safe_declareFunction hwf hvs hsettled hspares h
    exact Safe.get_bind (hdeclare.bind_silent
      fun _ _ _ hmoves hmatches => Safe.pure hmoves.inv (matches_after rfl hmatches))
  | returnWith keyword value =>
    cases value with
    | none => exact Safe.pure h.inv trivial
    | some e =>
      exact (heval e cls layers m before hwf hvs h).bind_silent
        fun _ _ _ hmoves _ => Safe.pure hmoves.inv trivial
  | classDecl decl =>
    exact (safe_declareClass heval hwf hvs hsettled hspares h).bind_silent
      fun _ _ _ hmoves hmatches => Safe.pure hmoves.inv (matches_after rfl hmatches)

/-- Whatever the fuel, expressions and statements run safely. -/
theorem safe_evaluate_execute (vs : List Visit) (fuel : Nat) :
    EvaluatesSafely vs (evaluate fuel) (evaluateTrace .frames fuel) ∧
      ExecutesSafely vs (execute fuel) (executeTrace .frames fuel) := by
  induction fuel with
  | zero =>
    exact ⟨fun _ _ _ _ _ _ _ h => Safe.outOfFuel h.inv,
      fun _ _ _ _ _ _ _ _ _ h => Safe.outOfFuel h.inv⟩
  | succ fuel ih => exact ⟨evaluatesSafely_succ ih.1 ih.2, executesSafely_succ ih.1 ih.2⟩

/-- No local frame matters at the top level. -/
theorem Situated.spares_global (h : Situated vs before m []) (ss : List Stmt) : Spares m ss := by
  intro p hp hhead
  have hfits := h.fits
  generalize m.chain = chain at hfits hhead
  cases hfits
  exact absurd (Option.some.inj hhead).symm (h.inv.vacant p hp).2.1

/-- A program runs safely from the top level. -/
theorem safe_interpret (ss : List Stmt) (hss : Stmts.WellFormed ss)
    (hvs : ∀ v ∈ Stmts.visits .outside [] ss, v ∈ vs) (h : Situated vs before m []) :
    Safe vs before m (interpret fuel ss) (interpretTrace .frames fuel ss m) fun _ _ _ => True := by
  induction ss generalizing m before with
  | nil => exact Safe.pure h.inv trivial
  | cons s ss ih =>
    have hs := (safe_evaluate_execute vs fuel).2 s .outside [] m before hss.1
      (fun v hv => hvs v (List.mem_append_left _ hv)) (by simp [Walk.Settled]) (h.spares_global _) h
    refine hs.bind fun completion m' between hmoves _ => ?_
    refine ih hss.2 (fun v hv => hvs v (List.mem_append_right _ ?_)) (h.moves hmoves)
    have htop : Layers.after [] s = [] := by
      unfold Layers.after
      split <;> rfl
    rwa [htop]

end

end Lox
