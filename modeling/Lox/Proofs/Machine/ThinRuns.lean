import Lox.Proofs.Machine.Thinned

/-!
# Running programs with places left out

A program does on a machine without what is left out what it does on the machine, if flat blocks
are run without a frame and the distances recorded for nodes do not count the frames of flat
blocks. What declares something must not stand directly in a flat block, so that the frames of
flat blocks stay empty.
-/

namespace Lox

variable {name : Token} {v : Visit}

section

open Exec

variable {S : Thinning} {m : Machine} {during : List Event} {layers : List Layer}

/-! ## Names and members -/

theorem Thinning.Fits.define (hfits : S.Fits layers m.chain)
    (hsolid : Layers.Solid S.flat layers 0) {name : String} {v v' : Value} (hv : S.Values v v') :
    Thins S (fun _ _ => True) m (define name v) (define name v') during := by
  have hhead := hfits.head hsolid
  refine Thins.get_bind ?_
  have hchain : (S.machine m).chain = S.chain m.chain := rfl
  rw [hchain]
  cases hc : m.chain with
  | nil => exact Thins.pure trivial
  | cons i outer =>
    have hi : S.skips i = false := hhead i (by rw [hc]; rfl)
    rw [Thinning.chain_cons, hi]
    exact Thins.defineIn hi hv

theorem thins_assign {chain : Chain} (hmade : ∀ i ∈ chain, S.skips i = true → S.firstFrame ≤ i)
    {v v' : Value} (hv : S.Values v v') :
    Thins S (fun _ _ => True) m (assign chain name v) (assign (S.chain chain) name v') during := by
  refine .of_at fun hm _ => Thins.get_bind ?_
  obtain ⟨heq, hkept⟩ := hm.heap.holder hmade name.lexeme
  have hheap : (S.machine m).heap = S.heap m.heap := rfl
  rw [hheap, heq]
  refine Thins.bind_silent (R := fun i i' => i' = S.frame i ∧ S.skips i = false)
    (Thins.ofExcept fun i hi => ⟨rfl, hkept i hi⟩) fun i i' _ _ hi => ?_
  obtain ⟨rfl, hi⟩ := hi
  exact Thins.defineIn hi hv

/-- On the machine without the frames of flat blocks, the distance of a name does not count them. -/
theorem Thinning.Passes.locals_eq (hv : S.Passes v) (hm : m.locals = S.source) :
    (S.machine m).locals[v.id]? = m.locals[v.id]?.map (Layers.thin S.flat v.layers) := by
  rw [hm]
  exact hv.distance

/-- The frame at a recorded distance is never that of a flat block. -/
theorem thins_lookUp (hv : S.Passes v) (hfits : S.Fits v.layers m.chain) :
    Thins S S.Values m (lookUp v.id name) (lookUp v.id name) during := by
  refine .of_at fun hm _ => Thins.get_bind ?_
  rw [hv.locals_eq hm.locals]
  cases hd : m.locals[v.id]? with
  | none =>
    obtain ⟨heq, hholds⟩ := hm.heap.get_global name.lexeme
    simp only [Option.map_none, Thinning.machine, heq]
    exact Thins.ofExcept fun w hw => ⟨rfl, hholds w hw⟩
  | some d =>
    rw [hm.locals] at hd
    obtain ⟨heq, hholds⟩ := hfits.getAt hm.heap (hv.solid d hd) name.lexeme
    simp only [Option.map_some, Thinning.machine, heq]
    exact Thins.ofExcept fun w hw => ⟨rfl, hholds w hw⟩

theorem thins_overwrite (hv : S.Passes v) (hfits : S.Fits v.layers m.chain) {w w' : Value}
    (hw : S.Values w w') :
    Thins S (fun _ _ => True) m (overwrite v.id name w) (overwrite v.id name w') during := by
  refine .of_at fun hm _ => Thins.get_bind ?_
  rw [hv.locals_eq hm.locals]
  cases hd : m.locals[v.id]? with
  | none =>
    have hglobal : Thins S (fun _ _ => True) m (assign globalChain name w)
        (assign (S.chain globalChain) name w') during :=
      thins_assign (List.forall_mem_singleton.2 (by simp [S.global])) hw
    rw [Thinning.chain_global] at hglobal
    exact hglobal
  | some d =>
    rw [hm.locals] at hd
    obtain ⟨heq, hkept⟩ := hfits.frameAt (hv.solid d hd) name.lexeme
    refine Thins.get_bind ?_
    simp only [Thinning.machine, heq]
    refine Thins.bind_silent (R := fun i i' => i' = S.frame i ∧ S.skips i = false)
      (Thins.ofExcept fun i hi => ⟨rfl, hkept i hi⟩) fun i i' _ _ hi => ?_
    obtain ⟨rfl, hi⟩ := hi
    exact Thins.defineIn hi hw

/-- A frame that is made for a scope other than that of a flat block is kept. -/
theorem Thinning.Knows.keeps_next (hknows : S.Knows during) (hm : S.Sound m.heap) {region : Region}
    {outer : Chain} (he : .opened m.heap.frames.next region outer ∈ during)
    (hregion : region.isFlat S.flat = false) : S.skips m.heap.frames.next = false := by
  rw [hknows _ region outer he hm.firstFrame, hregion]

theorem Thinning.Sound.keeps_function (hm : S.Sound m.heap) :
    S.drops m.heap.functions.size = false := S.kept _ hm.firstFunction

/-- A frame with one value. -/
theorem Thinning.Holds.singleton {w : Value} (hw : S.Holds w) (x : String) :
    ∀ name v, ((∅ : Frame).insert x w).get? name = some v → S.Holds v := by
  intro name v hv
  rw [Table.get?_insert] at hv
  split at hv
  · cases hv
    exact hw
  · cases hv

/-- The frame for a receiver is kept, and the bound function too. -/
theorem thins_getMember {start : ClassId} {i : InstanceId} :
    Thins S S.Values m (getMember start i name) (getMember start i name)
      (getMemberTrace .frames start i name m) := by
  refine .of_at fun hm hknows => Thins.get_bind ?_
  have hheap : (S.machine m).heap = S.heap m.heap := rfl
  rw [hheap, Thinning.member?_heap]
  rw [getMemberTrace] at hknows
  cases hmember : m.heap.member? start i name.lexeme with
  | none => exact Thins.fail
  | some member =>
    rw [hmember] at hknows
    cases member with
    | field v =>
      exact Thins.pure ⟨rfl, hm.heap.fields i name.lexeme v (Heap.get?_of_member? hmember)⟩
    | method c =>
      have hframe : S.skips m.heap.frames.next = false :=
        hknows.keeps_next hm.heap (List.mem_singleton_self _) rfl
      have hfunction := hm.heap.keeps_function
      obtain ⟨id, hid⟩ := Heap.exists_of_member? hmember
      have hc : S.FitsMethod c := hm.heap.methods id name.lexeme c hid
      have hreceiver : S.Holds (.instance_ i) := nofun
      refine Thins.map (R := fun f f' => f' = S.function f ∧ S.drops f = false)
        (Thins.withHeap fun _ _ => ⟨_, Thinning.bindMethod_heap c i hframe hfunction,
          ⟨rfl, hfunction⟩, ?_⟩) ?_
      · exact Thinning.Sound.newFunction (Thinning.Sound.newFrame hm.heap (by simp [hframe])
          (hreceiver.singleton "this")) (hc.bind hframe)
      · rintro f f' ⟨rfl, hf⟩
        exact ⟨rfl, fun g hg => by cases hg; exact hf⟩

theorem thins_getProperty {object object' : Value} (hobject : S.Values object object') :
    Thins S S.Values m (getProperty object name) (getProperty object' name)
      (getPropertyTrace .frames object name m) := by
  obtain ⟨rfl, -⟩ := hobject
  refine .of_at fun hm _ => Thins.get_bind ?_
  have hheap : (S.machine m).heap = S.heap m.heap := rfl
  cases object with
  | instance_ i =>
    simp only [Thinning.value, hheap, Thinning.inst_heap, Thinning.inst]
    exact thins_getMember
  | class_ c =>
    simp only [Thinning.value, hheap, Thinning.classField?_heap]
    cases hv : m.heap.classField? c name.lexeme with
    | none => exact Thins.fail
    | some v => exact Thins.pure ⟨rfl, hm.heap.classField? hv⟩
  | _ => exact Thins.fail

theorem thins_setProperty {object object' : Value} (hobject : S.Values object object')
    {value value' : Exec Value} {events : Events} (h : Thins S S.Values m value value' (events m)) :
    Thins S S.Values m (setProperty object name value) (setProperty object' name value')
      (setPropertyTrace .frames object name value events m) := by
  obtain ⟨rfl, -⟩ := hobject
  cases object with
  | instance_ i =>
    refine Thins.bind h fun v v' m' _ hv => ?_
    obtain ⟨rfl, hholds⟩ := hv
    exact Thins.bind_silent (Thins.modifyHeap fun hm =>
      ⟨Thinning.setField_heap i name.lexeme v, hm.heap.setField hholds i _⟩)
        fun _ _ _ _ _ => Thins.pure ⟨rfl, hholds⟩
  | class_ c =>
    refine Thins.bind h fun v v' m' _ hv => ?_
    obtain ⟨rfl, hholds⟩ := hv
    exact Thins.bind_silent (Thins.modifyHeap fun hm =>
      ⟨Thinning.setClassField_heap c name.lexeme v, hm.heap.setClassField hholds c _⟩)
        fun _ _ _ _ _ => Thins.pure ⟨rfl, hholds⟩
  | _ => exact Thins.fail

/-- Neither the receiver nor the superclass is in a frame that is left out. -/
theorem thins_superMember (hv : S.Passes v) (huse : v.use = .superclass)
    (hfits : S.Fits v.layers m.chain) {keyword method : Token} :
    Thins S S.Values m (superMember v.id keyword method) (superMember v.id keyword method)
      (superMemberTrace .frames v.id keyword method m) := by
  refine .of_at fun hm hknows => Thins.get_bind ?_
  rw [hv.locals_eq hm.locals]
  match hd : m.locals[v.id]? with
  | none => exact Thins.fail
  | some 0 =>
    simp only [Option.map_some, Layers.thin_zero]
    exact Thins.fail
  | some (d + 1) =>
    have hd' : S.source[v.id]? = some (d + 1) := hm.locals ▸ hd
    have hsolid := hv.receiver huse d hd'
    have hnear := hfits.getAt hm.heap hsolid "this"
    have hfar := hfits.getAt hm.heap (hv.solid (d + 1) hd') keyword.lexeme
    rw [Layers.thin_succ_of_solid hsolid] at hfar
    have hheap : (S.machine m).heap = S.heap m.heap := rfl
    have hchain : (S.machine m).chain = S.chain m.chain := rfl
    simp only [Option.map_some, Layers.thin_succ_of_solid hsolid, hheap, hchain, hnear.1, hfar.1,
      superMemberTrace, hd]
    cases m.heap.frames.getAt m.chain (d + 1) keyword.lexeme with
    | error fault => exact Thins.fail
    | ok superclass =>
      cases m.heap.frames.getAt m.chain d "this" with
      | error fault => exact Thins.fail
      | ok receiver =>
        simp only [Except.map, Exec.ofExcept, pure_bind]
        cases superclass with
        | class_ c =>
          cases receiver with
          | instance_ i => exact thins_getMember
          | _ => exact Thins.fail
        | _ => exact Thins.fail

/-! ## Statements and calls -/

/-- Evaluating an expression does without what is left out what it does otherwise. -/
def ThinsExprs (S : Thinning) (eval eval' : Expr → Exec Value) (events : Expr → Events) : Prop :=
  ∀ e cls layers m, (∀ v ∈ e.visits cls layers, S.Passes v) → S.Fits layers m.chain →
    Thins S S.Values m (eval e) (eval' e) (events e m)

/-- Executing a statement does without what is left out what it does otherwise. What declares
something does not stand directly in a flat block. -/
def ThinsStmts (S : Thinning) (exec exec' : Stmt → Exec Completion) (events : Stmt → Events) :
    Prop :=
  ∀ s cls layers m, (∀ v ∈ s.visits cls layers, S.Passes v) → S.Fits layers m.chain →
    (Layers.Solid S.flat layers 0 ∨ s.Quiet) →
      Thins S S.Completions m (exec s) (exec' s) (events s m)

def Thinning.Lists (S : Thinning) (vs vs' : List Value) : Prop :=
  vs' = vs.map S.value ∧ ∀ v ∈ vs, S.Holds v

variable {eval eval' : Expr → Exec Value} {evalEvents : Expr → Events}
  {exec exec' : Stmt → Exec Completion} {execEvents : Stmt → Events} {cls : ClassRole}

theorem ThinsExprs.evaluateAll (heval : ThinsExprs S eval eval' evalEvents) {es : List Expr}
    (hvisits : ∀ v ∈ Exprs.visits cls layers es, S.Passes v) (hfits : S.Fits layers m.chain) :
    Thins S S.Lists m (evaluateAll eval es) (evaluateAll eval' es)
      (evaluateAllTrace eval evalEvents es m) := by
  induction es generalizing m with
  | nil => exact Thins.pure ⟨rfl, nofun⟩
  | cons e es ih =>
    obtain ⟨he, hes⟩ := List.forall_mem_append.1 hvisits
    refine Thins.bind (heval e cls layers m he hfits) fun v v' m' hchain hv => ?_
    refine Thins.bind_silent (ih hes (hchain ▸ hfits)) fun vs vs' _ _ hvs => Thins.pure ?_
    obtain ⟨rfl, hv⟩ := hv
    obtain ⟨rfl, hvs⟩ := hvs
    exact ⟨rfl, List.forall_mem_cons.2 ⟨hv, hvs⟩⟩

theorem ThinsStmts.executeAll (hexec : ThinsStmts S exec exec' execEvents) {ss : List Stmt}
    (hvisits : ∀ v ∈ Stmts.visits cls layers ss, S.Passes v) (hfits : S.Fits layers m.chain)
    (hquiet : Layers.Solid S.flat layers 0 ∨ ∀ s ∈ ss, s.Quiet) :
    Thins S S.Completions m (executeAll exec ss) (executeAll exec' ss)
      (executeAllTrace exec execEvents ss m) := by
  induction ss generalizing m layers with
  | nil => exact Thins.pure .normal
  | cons s ss ih =>
    obtain ⟨hs, hss⟩ := List.forall_mem_append.1 hvisits
    have hregions : (Layers.after layers s).map Layer.region = layers.map Layer.region :=
      Layers.regions_after s
    refine Thins.bind (hexec s cls layers m hs hfits ?_) fun c c' m' hchain hc => ?_
    · exact hquiet.imp id fun h => h s List.mem_cons_self
    · cases hc with
      | normal =>
        refine ih hss ((hchain ▸ hfits).congr hregions) ?_
        exact hquiet.imp (·.congr hregions) fun h s hs => h s (List.mem_cons_of_mem _ hs)
      | returned hv => exact Thins.pure (.returned hv)

/-- A frame that is kept is made for a scope, and statements are executed in it. -/
theorem ThinsStmts.executeInFrame (hexec : ThinsStmts S exec exec' execEvents) {l : Layer}
    {frame frame' : Frame} {chain : Chain} {body : List Stmt}
    (hregion : l.region.isFlat S.flat = false) (hframe : frame' = frame.map S.value)
    (hholds : ∀ name v, frame.get? name = some v → S.Holds v)
    (hvisits : ∀ v ∈ Stmts.visits cls (l :: layers) body, S.Passes v)
    (hfits : S.Fits layers chain) :
    Thins S S.Completions m (executeInFrame exec frame chain body)
      (executeInFrame exec' frame' (S.chain chain) body)
      (executeInFrameTrace .frames exec execEvents l.region frame chain body m) := by
  refine Thins.bind (R := fun i i' => i' = S.frame i ∧ S.skips i = false)
    (Thins.withHeap fun hm hknows => ?_) fun i i' m' _ hi => ?_
  · have hkeep : S.skips m.heap.frames.next = false :=
      hknows.keeps_next hm.heap (List.mem_singleton_self _) hregion
    subst hframe
    exact ⟨_, Thinning.newFrame_heap frame hkeep, ⟨rfl, hkeep⟩,
      hm.heap.newFrame (by simp [hkeep]) hholds⟩
  · obtain ⟨rfl, hi⟩ := hi
    have hsolid : Layers.Solid S.flat (l :: layers) 0 := by
      rintro _ hl
      cases hl
      exact hregion
    have hinner : S.Fits (l :: layers) (i :: chain) :=
      .inner (hi.trans hregion.symm) (by simp [hi]) hfits
    have hbody := hexec.executeAll (m := { m' with chain := i :: chain }) hvisits hinner
      (.inl hsolid)
    have hchain : S.chain (i :: chain) = S.frame i :: S.chain chain := by
      rw [Thinning.chain_cons, hi]
      rfl
    rw [← hchain]
    exact Thins.inChain hbody

/-- Statements of a flat block are executed where the block stands. -/
theorem ThinsStmts.flatBlock (hexec : ThinsStmts S exec exec' execEvents) {body : List Stmt}
    (hflat : S.flat body = true)
    (hvisits : ∀ v ∈ Stmts.visits cls (.block body :: layers) body, S.Passes v)
    (hfits : S.Fits layers m.chain) :
    Thins S S.Completions m (Lox.executeInFrame exec ∅ m.chain body) (Lox.executeAll exec' body)
      (executeInFrameTrace .frames exec execEvents (.block body) ∅ m.chain body m) := by
  intro hm hknows
  have hskips : S.skips m.heap.frames.next = true :=
    (hknows _ _ _ (List.mem_append_left _ (List.mem_singleton_self _)) hm.heap.firstFrame).trans hflat
  have hinner : S.Fits (.block body :: layers) (m.heap.frames.next :: m.chain) :=
    .inner (hskips.trans hflat.symm) (fun _ => hm.heap.firstFrame) hfits
  have hchain : S.chain (m.heap.frames.next :: m.chain) = S.chain m.chain := by
    rw [Thinning.chain_cons, hskips]
    rfl
  obtain ⟨opened, hopened⟩ : ∃ opened : Machine, opened =
    { m with heap := (m.heap.newFrame ∅).2, chain := m.heap.frames.next :: m.chain } := ⟨_, rfl⟩
  have hmachine : S.machine opened = S.machine m := by
    simp only [hopened, Thinning.machine, hchain, Thinning.heap_newFrame_of_skips ∅ hskips]
  have hat : S.At opened.chain opened := by
    rw [hopened]
    exact ⟨hm.heap.newFrame (fun _ => rfl) (fun _ _ h => by cases h), hm.locals, rfl⟩
  have hback : ∀ m' : Machine, m'.chain = opened.chain →
      S.machine m' = S.machine { m' with chain := m.chain } := by
    intro m' hm'
    simp only [Thinning.machine, hm', hopened, hchain]
  have hbody := hexec.executeAll (m := opened) hvisits (by rw [hopened]; exact hinner)
    (.inr (S.quiet body hflat)) hat
    (hknows.mono (by rw [hopened]; exact List.subset_append_right _ _))
  have hrun : Lox.executeInFrame exec ∅ m.chain body m =
      Exec.inChain (m.heap.frames.next :: m.chain) (Lox.executeAll exec body)
        { m with heap := (m.heap.newFrame ∅).2 } := rfl
  rw [hmachine] at hbody
  simp only [hrun, Exec.inChain, ← hopened]
  generalize Lox.executeAll exec body opened = r at hbody
  generalize Lox.executeAll exec' body (S.machine m) = r' at hbody
  cases hbody with
  | @error halt m' hm' =>
    rw [hback m' hm'.chain]
    exact .error ⟨hm'.heap, hm'.locals, rfl⟩
  | @ok a a' m' ha hm' =>
    rw [hback m' hm'.chain]
    exact .ok ha ⟨hm'.heap, hm'.locals, rfl⟩

theorem callFrame_value (params : List Token) (arguments : List Value) :
    callFrame params (arguments.map S.value) = (callFrame params arguments).map S.value := by
  have hfold : ∀ (ps : List (Token × Value)) (frame : Frame),
      (ps.map (Prod.map id S.value)).foldl (fun frame p => frame.insert p.1.lexeme p.2)
          (frame.map S.value) =
        (ps.foldl (fun frame p => frame.insert p.1.lexeme p.2) frame).map S.value := by
    intro ps
    induction ps with
    | nil => exact fun _ => rfl
    | cons p ps ih =>
      intro frame
      have hinsert := Table.map_insert (f := S.value) frame p.1.lexeme p.2
      rw [List.foldl_cons, ← ih, hinsert]
      rfl
  rw [callFrame, List.zip_map_right]
  exact hfold (params.zip arguments) ∅

/-- The frame of a call is kept, and an initializer finds its receiver in both runs. -/
theorem ThinsStmts.runClosure (hexec : ThinsStmts S exec exec' execEvents) {c : Closure}
    (hc : S.FitsClosure c) {arguments arguments' : List Value}
    (harguments : S.Lists arguments arguments') :
    Thins S S.Values m (Lox.runClosure exec c arguments)
      (Lox.runClosure exec' (S.closure c) arguments')
      (runClosureTrace .frames exec execEvents c arguments m) := by
  obtain ⟨rfl, hholds⟩ := harguments
  obtain ⟨cls, layers, hfits, hvisits, hinit⟩ := hc
  rw [FunctionDecl.visits_eq] at hvisits
  have hbody := hexec.executeInFrame (m := m) (l := .call c.decl) rfl
    (callFrame_value c.decl.params arguments)
    (fun name v hv => hholds v (mem_of_mem_callFrame (Table.mem_values_of_get? hv))) hvisits hfits
  refine Thins.bind_silent hbody fun completion completion' m' _ hcompletion => ?_
  have hflag : (S.closure c).isInitializer = c.isInitializer := rfl
  rw [hflag]
  cases hi : c.isInitializer with
  | true =>
    refine .of_at fun hm' _ => Thins.get_bind ?_
    obtain ⟨heq, hget⟩ := hfits.getAt hm'.heap (hinit hi) "this"
    rw [Layers.thin_zero] at heq
    have hheap : (S.machine m').heap = S.heap m'.heap := rfl
    simp only [hheap, Thinning.closure, heq]
    exact Thins.ofExcept fun v hv => ⟨rfl, hget v hv⟩
  | false =>
    cases hcompletion with
    | normal => exact Thins.pure S.values_nil
    | returned hv => exact Thins.pure hv

theorem ThinsStmts.construct (hexec : ThinsStmts S exec exec' execEvents) {c : ClassId}
    {arguments arguments' : List Value} (harguments : S.Lists arguments arguments') :
    Thins S S.Values m (Lox.construct exec c arguments) (Lox.construct exec' c arguments')
      (constructTrace .frames exec execEvents c arguments m) := by
  refine Thins.bind (R := fun i i' => i = i') (Thins.withHeap fun hm _ =>
    ⟨_, Thinning.newInstance_heap c, rfl, hm.heap.newInstance c⟩) fun i i' m' _ hi => ?_
  subst hi
  refine .of_at fun hm' _ => Thins.get_bind ?_
  have hheap : (S.machine m').heap = S.heap m'.heap := rfl
  simp only [hheap, Thinning.initializer?_heap]
  cases hinit : m'.heap.initializer? c with
  | none => exact Thins.pure ⟨rfl, fun _ h => by cases h⟩
  | some init =>
    have hmethod : S.FitsMethod init := hm'.heap.findMethod? hinit
    refine Thins.bind (R := fun k k' => k' = S.closure k ∧ S.FitsClosure k)
      (Thins.withHeap fun _ hknows => ?_) fun k k' m'' _ hk => ?_
    · have hkeep : S.skips m'.heap.frames.next = false :=
        hknows.keeps_next hm'.heap (List.mem_singleton_self _) rfl
      have hreceiver : S.Holds (.instance_ i) := fun _ h => by cases h
      exact ⟨_, Thinning.bindReceiver_heap init i hkeep, ⟨rfl, hmethod.bind hkeep⟩,
        hm'.heap.newFrame (by simp [hkeep]) (hreceiver.singleton "this")⟩
    · obtain ⟨rfl, hk⟩ := hk
      exact Thins.bind_silent (hexec.runClosure hk harguments) fun _ _ _ _ _ =>
        Thins.pure ⟨rfl, fun _ h => by cases h⟩

/-- Both runs are equally deep in calls, so both overflow or neither does. -/
theorem ThinsStmts.callValue (hexec : ThinsStmts S exec exec' execEvents)
    {callee callee' : Value} (hcallee : S.Values callee callee') {paren : Token}
    {arguments arguments' : List Value} (harguments : S.Lists arguments arguments') :
    Thins S S.Values m (Lox.callValue exec callee paren arguments)
      (Lox.callValue exec' callee' paren arguments')
      (callValueTrace .frames exec execEvents callee arguments m) := by
  obtain ⟨rfl, hholds⟩ := hcallee
  refine .of_at fun hm _ => Thins.get_bind ?_
  have hheap : (S.machine m).heap = S.heap m.heap := rfl
  have hdepth : (S.machine m).depth = m.depth := rfl
  have hlength : arguments'.length = arguments.length := by simp [harguments.1]
  unfold callValueTrace
  simp only [hheap, hdepth, hlength, Thinning.callable?_heap hholds, Thinning.type_value]
  cases hf : m.heap.callable? callee with
  | none => exact Thins.fail
  | some f =>
    simp only [Option.map_some, Thinning.arity_heap]
    by_cases harity : arguments.length = m.heap.arity f
    · simp only [harity, ne_eq, not_true_eq_false, if_false]
      by_cases hdeep : maxCallDepth ≤ m.depth
      · simp only [hdeep, if_true]
        exact Thins.fail
      · simp only [hdeep, if_false]
        refine Thins.nested ?_
        cases f with
        | closure c =>
          refine hexec.runClosure ?_ harguments
          cases callee with
          | function g =>
            cases hf
            exact hm.heap.functions g (hholds g rfl)
          | _ => cases hf
        | native f =>
          cases f with
          | clock => exact Thins.readClock
          | printNative =>
            refine Thins.bind_silent (Thins.writeLine ?_) fun _ _ _ _ _ =>
              Thins.pure ⟨rfl, fun _ h => by cases h⟩
            obtain ⟨rfl, hvalues⟩ := harguments
            cases arguments with
            | nil => exact S.values_nil
            | cons v vs => exact ⟨rfl, hvalues v List.mem_cons_self⟩
        | constructor c => exact hexec.construct harguments
    · simp only [harity, ne_eq, not_false_eq_true, if_true]
      exact Thins.fail

/-! ## Classes -/

theorem ThinsExprs.superclassOf (heval : ThinsExprs S eval eval' evalEvents)
    {superclass : Option Expr} (hvisits : ∀ v ∈ Expr.optionVisits cls layers superclass, S.Passes v)
    (hfits : S.Fits layers m.chain) : Thins S (fun o o' => o = o' ∧ o.isSome = superclass.isSome) m
      (Lox.superclassOf eval name superclass) (Lox.superclassOf eval' name superclass)
      (superclassTrace evalEvents superclass m) := by
  cases superclass with
  | none => exact Thins.pure ⟨rfl, rfl⟩
  | some e =>
    refine Thins.bind_silent (heval e cls layers m hvisits hfits) fun v v' _ _ hv => ?_
    obtain ⟨rfl, -⟩ := hv
    cases v with
    | class_ c => exact Thins.pure ⟨rfl, rfl⟩
    | _ => exact Thins.fail

/-- The chain that the methods of a class see. -/
theorem thins_methodChain {decl : ClassDecl} {superclass : Option ClassId}
    (hsuper : superclass.isSome = decl.superclass.isSome) (hfits : S.Fits layers m.chain) :
    Thins S (fun c c' => c' = S.chain c ∧ S.Fits (decl.layers layers) c) m
      (methodChain superclass) (methodChain superclass)
      (methodChainTrace .frames decl superclass m) := by
  have hdeclared : S.Fits (Layers.declare decl.name.lexeme layers) m.chain :=
    hfits.congr (Layers.regions_declare _)
  refine Thins.get_bind ?_
  cases superclass with
  | none =>
    have hnone : decl.superclass = none := by simpa using hsuper.symm
    refine Thins.pure ⟨rfl, ?_⟩
    simpa only [ClassDecl.layers, hnone] using hdeclared
  | some c =>
    obtain ⟨e, hsome⟩ := Option.isSome_iff_exists.1 (hsuper.symm.trans rfl)
    have hholds : S.Holds (.class_ c) := nofun
    refine Thins.bind_silent (R := fun i i' => i' = S.frame i ∧ S.skips i = false)
      (Thins.withHeap fun hm hknows => ?_) fun i i' _ _ hi => ?_
    · have hkeep : S.skips m.heap.frames.next = false :=
        hknows.keeps_next hm.heap (List.mem_singleton_self _) rfl
      have hframe := Thinning.newFrame_heap ((∅ : Frame).insert "super" (.class_ c)) hkeep
      rw [Table.map_insert, Table.map_empty] at hframe
      exact ⟨_, hframe, ⟨rfl, hkeep⟩,
        hm.heap.newFrame (by simp [hkeep]) (hholds.singleton "super")⟩
    · obtain ⟨rfl, hi⟩ := hi
      refine Thins.pure ⟨?_, ?_⟩
      · rw [Thinning.chain_cons, hi]
        rfl
      · rw [ClassDecl.layers, hsome]
        exact .inner hi (by simp [hi]) hdeclared

theorem thins_staticTable {chain : Chain} (hfits : S.Fits layers chain) (ds : List FunctionDecl)
    (hvisits : ∀ v ∈ FunctionDecls.staticVisits layers ds, S.Passes v) {fields : Table Value}
    (hfields : ∀ name v, fields.get? name = some v → S.Holds v) :
    Thins S (fun t t' => t' = t.map S.value ∧ ∀ name v, t.get? name = some v → S.Holds v) m
      (staticTable chain ds fields) (staticTable (S.chain chain) ds (fields.map S.value))
      during := by
  induction ds generalizing m fields with
  | nil => exact Thins.pure ⟨rfl, hfields⟩
  | cons d ds ih =>
    obtain ⟨hd, hds⟩ := List.forall_mem_append.1 hvisits
    have hc : S.FitsClosure ⟨d, chain, false⟩ := ⟨.static, layers, hfits, hd, nofun⟩
    refine Thins.bind_silent (R := fun f f' => f' = S.function f ∧ S.drops f = false)
      (Thins.withHeap fun hm _ => ⟨_, Thinning.newFunction_heap ⟨d, chain, false⟩
        hm.heap.keeps_function, ⟨rfl, hm.heap.keeps_function⟩, hm.heap.newFunction hc⟩)
      fun f f' _ _ hf => ?_
    obtain ⟨rfl, hf⟩ := hf
    have hinsert := Table.map_insert (f := S.value) fields d.name.lexeme (.function f)
    rw [Thinning.value] at hinsert
    rw [← hinsert]
    refine ih hds fun name v hv => ?_
    rw [Table.get?_insert] at hv
    split at hv
    · cases hv
      intro g hg
      cases hg
      exact hf
    · exact hfields name v hv

theorem methodTable_closure (chain : Chain) (ds : List FunctionDecl) :
    methodTable (S.chain chain) ds = (methodTable chain ds).map S.closure := by
  have hfold : ∀ t : Table Closure,
      ds.foldl (fun t d => t.insert d.name.lexeme ⟨d, S.chain chain, d.isInitializer⟩)
          (t.map S.closure) =
        (ds.foldl (fun t d => t.insert d.name.lexeme ⟨d, chain, d.isInitializer⟩) t).map
          S.closure := by
    induction ds with
    | nil => exact fun _ => rfl
    | cons d ds ih =>
      intro t
      have hinsert := Table.map_insert (f := S.closure) t d.name.lexeme
        ⟨d, chain, d.isInitializer⟩
      rw [List.foldl_cons, List.foldl_cons, ← ih, hinsert]
      rfl
  exact hfold ∅

theorem ThinsExprs.declareClass (heval : ThinsExprs S eval eval' evalEvents) {decl : ClassDecl}
    (hvisits : ∀ v ∈ (Stmt.classDecl decl).visits cls layers, S.Passes v)
    (hfits : S.Fits layers m.chain) (hsolid : Layers.Solid S.flat layers 0) :
    Thins S (fun _ _ => True) m (Lox.declareClass eval decl) (Lox.declareClass eval' decl)
      (declareClassTrace .frames eval evalEvents decl m) := by
  obtain ⟨name, superclass, methods, statics⟩ := decl
  obtain ⟨hsuper, hmembers⟩ := List.forall_mem_append.1 hvisits
  obtain ⟨hstatics, hmethods⟩ := List.forall_mem_append.1 hmembers
  refine Thins.bind (heval.superclassOf hsuper (hfits.congr (Layers.regions_await _)))
    fun c c' m₁ hm₁ hc => ?_
  obtain ⟨rfl, hc⟩ := hc
  refine Thins.bind ((hm₁ ▸ hfits).define hsolid ⟨rfl, nofun⟩) fun _ _ m₂ hm₂ _ => ?_
  have hfits₂ : S.Fits layers m₂.chain := by
    rw [hm₂, hm₁]
    exact hfits
  refine Thins.bind (thins_methodChain hc hfits₂) fun chain chain' m₃ hm₃ hchain => ?_
  obtain ⟨rfl, hchain⟩ := hchain
  refine Thins.bind (thins_staticTable hchain statics hstatics nofun)
    fun fields fields' m₄ hm₄ hfields => ?_
  obtain ⟨rfl, hfields⟩ := hfields
  refine Thins.bind_silent (R := fun c c' => c = c') (Thins.withHeap fun hm _ => ?_)
    fun c c' m₅ hm₅ hc => ?_
  · have hclass := Thinning.newClass_heap (S := S) (h := m₄.heap)
      ⟨name.lexeme, (c.map m₄.heap.lineage).getD [], methodTable chain methods, fields⟩
    have hlineage : (S.heap m₄.heap).lineage = m₄.heap.lineage := funext fun _ => by simp
    simp only [methodTable_closure, hlineage]
    refine ⟨_, hclass, rfl, hm.heap.newClass (fun x k hk => ?_) hfields⟩
    obtain ⟨hkchain, hkdecl, -⟩ := get?_methodTable hk
    exact ⟨_, _, by rw [hkchain]; exact hchain,
      fun v hv => hmethods v (FunctionDecls.mem_methodVisits.2 ⟨_, hkdecl, hv⟩)⟩
  · subst hc
    have hfits₅ : S.Fits layers m₅.chain := by
      rw [hm₅, hm₄, hm₃]
      exact hfits₂
    exact Thins.get_bind (thins_assign (fun i hi => hfits₅.made hi) ⟨rfl, nofun⟩)

/-! ## Programs -/

/-- One amount of fuel more: expressions. -/
theorem thins_evaluateWith {fuel : Nat}
    (heval : ThinsExprs S (evaluate fuel) eval' (evaluateTrace .frames fuel))
    (hexec : ThinsStmts S (execute fuel) exec' (executeTrace .frames fuel)) :
    ThinsExprs S (evaluate (fuel + 1)) (evaluateWith eval' exec')
      (evaluateTrace .frames (fuel + 1)) := by
  intro e cls layers m hvisits hfits
  cases e with
  | literal l =>
    have hl := l.isReference_value
    exact Thins.pure ⟨(Thinning.value_of_isReference hl).symm, Thinning.holds_of_isReference hl⟩
  | grouping inner => exact heval inner cls layers m hvisits hfits
  | unary op operand =>
    refine Thins.bind_silent (heval operand cls layers m hvisits hfits) fun v v' _ _ hv => ?_
    obtain ⟨rfl, -⟩ := hv
    rw [Thinning.applyUnary_value]
    cases hr : applyUnary op v with
    | error fault => exact Thins.fail
    | ok r =>
      have hplain := applyUnary_isReference hr
      exact Thins.pure ⟨(Thinning.value_of_isReference hplain).symm,
        Thinning.holds_of_isReference hplain⟩
  | binary left op right =>
    obtain ⟨hl, hr⟩ := List.forall_mem_append.1 hvisits
    refine Thins.bind (heval left cls layers m hl hfits) fun a a' m' hm' ha =>
      Thins.bind_silent (heval right cls layers m' hr (hm' ▸ hfits)) fun b b' _ _ hb => ?_
    obtain ⟨rfl, ha⟩ := ha
    obtain ⟨rfl, hb⟩ := hb
    rw [Thinning.applyBinary_value op ha hb]
    cases hr : applyBinary op a b with
    | error fault => exact Thins.fail
    | ok r =>
      have hplain := applyBinary_isReference hr
      exact Thins.pure ⟨(Thinning.value_of_isReference hplain).symm,
        Thinning.holds_of_isReference hplain⟩
  | logical left op right =>
    obtain ⟨hl, hr⟩ := List.forall_mem_append.1 hvisits
    refine Thins.bind (heval left cls layers m hl hfits) fun a a' m' hm' ha => ?_
    obtain ⟨rfl, ha⟩ := ha
    have hshort : shortCircuits op (S.value a) = shortCircuits op a := by
      simp only [shortCircuits, Thinning.isTruthy_value]
    rw [hshort]
    cases shortCircuits op a with
    | true => exact Thins.pure ⟨rfl, ha⟩
    | false => exact heval right cls layers m' hr (hm' ▸ hfits)
  | conditional c a b =>
    obtain ⟨hc, hbranches⟩ := List.forall_mem_append.1 hvisits
    obtain ⟨ha, hb⟩ := List.forall_mem_append.1 hbranches
    refine Thins.bind (heval c cls layers m hc hfits) fun v v' m' hm' hv => ?_
    obtain ⟨rfl, -⟩ := hv
    rw [Thinning.isTruthy_value]
    cases v.isTruthy with
    | true => exact heval a cls layers m' ha (hm' ▸ hfits)
    | false => exact heval b cls layers m' hb (hm' ▸ hfits)
  | var id name => exact thins_lookUp (hvisits _ List.mem_cons_self) hfits
  | assign id name value =>
    obtain ⟨hvalue, hself⟩ := List.forall_mem_append.1 hvisits
    exact Thins.bind (heval value cls layers m hvalue hfits) fun v v' m' hm' hv =>
      Thins.bind_silent (thins_overwrite (hself _ List.mem_cons_self) (hm' ▸ hfits) hv)
        fun _ _ _ _ _ => Thins.pure hv
  | call callee paren arguments =>
    obtain ⟨hcallee, harguments⟩ := List.forall_mem_append.1 hvisits
    exact Thins.bind (heval callee cls layers m hcallee hfits) fun _ _ m' hm' hf =>
      Thins.bind (heval.evaluateAll harguments (hm' ▸ hfits)) fun _ _ _ _ hvs =>
        hexec.callValue hf hvs
  | get object name =>
    exact Thins.bind (heval object cls layers m hvisits hfits) fun _ _ _ _ hv =>
      thins_getProperty hv
  | set object name value =>
    obtain ⟨hvalue, hobject⟩ := List.forall_mem_append.1 hvisits
    exact Thins.bind (heval object cls layers m hobject hfits) fun _ _ m' hm' hv =>
      thins_setProperty hv (heval value cls layers m' hvalue (hm' ▸ hfits))
  | thisRef id keyword => exact thins_lookUp (hvisits _ List.mem_cons_self) hfits
  | superRef id keyword method =>
    intro hm hknows
    exact thins_superMember (hvisits _ List.mem_cons_self) rfl hfits hm
      (hknows.mono (List.subset_append_right _ _))

/-- One amount of fuel more: statements. -/
theorem thins_executeFlatWith {fuel : Nat}
    (heval : ThinsExprs S (evaluate fuel) eval' (evaluateTrace .frames fuel))
    (hexec : ThinsStmts S (execute fuel) exec' (executeTrace .frames fuel)) :
    ThinsStmts S (execute (fuel + 1)) (executeFlatWith S.flat eval' exec')
      (executeTrace .frames (fuel + 1)) := by
  intro s cls layers m hvisits hfits hquiet
  cases s with
  | expression e =>
    exact Thins.bind_silent (heval e cls layers m hvisits hfits) fun _ _ _ _ _ =>
      Thins.pure .normal
  | print e =>
    exact Thins.bind_silent (heval e cls layers m hvisits hfits) fun _ _ _ _ hv =>
      Thins.bind_silent (Thins.writeLine hv) fun _ _ _ _ _ => Thins.pure .normal
  | varDecl name value =>
    have hsolid : Layers.Solid S.flat layers 0 := hquiet.resolve_right id
    cases value with
    | none =>
      exact Thins.bind_silent (hfits.define hsolid S.values_nil) fun _ _ _ _ _ =>
        Thins.pure .normal
    | some e =>
      have hawait := hfits.congr (Layers.regions_await name.lexeme)
      exact Thins.bind_silent (heval e cls _ m hvisits hawait) fun _ _ _ hm' hv =>
        Thins.bind_silent ((hm' ▸ hfits).define hsolid hv) fun _ _ _ _ _ => Thins.pure .normal
  | block body =>
    simp only [executeFlatWith]
    by_cases hflat : S.flat body = true
    · simp only [hflat, if_true]
      exact hexec.flatBlock hflat hvisits hfits
    · simp only [hflat, Bool.false_eq_true, if_false]
      have hregion : (Layer.block body).region.isFlat S.flat = false :=
        Bool.eq_false_iff.2 hflat
      exact Thins.get_bind (hexec.executeInFrame hregion rfl (fun _ _ h => by cases h) hvisits hfits)
  | ifThen c a =>
    obtain ⟨hc, ha⟩ := List.forall_mem_append.1 hvisits
    refine Thins.bind (heval c cls layers m hc hfits) fun v v' m' hm' hv => ?_
    obtain ⟨rfl, -⟩ := hv
    rw [Thinning.isTruthy_value]
    cases v.isTruthy with
    | true => exact hexec a cls layers m' ha (hm' ▸ hfits) hquiet
    | false => exact Thins.pure .normal
  | ifElse c a b =>
    obtain ⟨hc, hbranches⟩ := List.forall_mem_append.1 hvisits
    obtain ⟨ha, hb⟩ := List.forall_mem_append.1 hbranches
    refine Thins.bind (heval c cls layers m hc hfits) fun v v' m' hm' hv => ?_
    obtain ⟨rfl, -⟩ := hv
    rw [Thinning.isTruthy_value]
    cases v.isTruthy with
    | true => exact hexec a cls layers m' ha (hm' ▸ hfits) (hquiet.imp id And.left)
    | false => exact hexec b cls layers m' hb (hm' ▸ hfits) (hquiet.imp id And.right)
  | whileLoop c body =>
    obtain ⟨hc, hbody⟩ := List.forall_mem_append.1 hvisits
    refine Thins.bind (heval c cls layers m hc hfits) fun v v' m' hm' hv => ?_
    obtain ⟨rfl, -⟩ := hv
    rw [Thinning.isTruthy_value]
    cases v.isTruthy with
    | false => exact Thins.pure .normal
    | true =>
      refine Thins.bind (hexec body cls layers m' hbody (hm' ▸ hfits) hquiet)
        fun r r' m'' hm'' hr => ?_
      cases hr with
      | returned hv => exact Thins.pure (.returned hv)
      | normal =>
        exact hexec (.whileLoop c body) cls layers m'' hvisits (by rw [hm'', hm']; exact hfits)
          hquiet
  | funDecl decl =>
    have hsolid : Layers.Solid S.flat layers 0 := hquiet.resolve_right id
    have hc : S.FitsClosure ⟨decl, m.chain, false⟩ :=
      ⟨cls, _, hfits.congr (Layers.regions_declare _), hvisits, fun h => by cases h⟩
    refine Thins.get_bind (Thins.bind_silent
      (R := fun f f' => f' = S.function f ∧ S.drops f = false)
      (Thins.withHeap fun hm _ => ⟨_, Thinning.newFunction_heap ⟨decl, m.chain, false⟩
        hm.heap.keeps_function, ⟨rfl, hm.heap.keeps_function⟩, hm.heap.newFunction hc⟩)
      fun f f' m' hm' hf => ?_)
    obtain ⟨rfl, hf⟩ := hf
    have hvalue : S.Values (.function f) (.function (S.function f)) :=
      ⟨rfl, fun g hg => by cases hg; exact hf⟩
    exact Thins.bind_silent ((hm' ▸ hfits).define hsolid hvalue) fun _ _ _ _ _ =>
      Thins.pure .normal
  | returnWith keyword value =>
    cases value with
    | none => exact Thins.pure (.returned S.values_nil)
    | some e =>
      exact Thins.bind_silent (heval e cls layers m hvisits hfits) fun _ _ _ _ hv =>
        Thins.pure (.returned hv)
  | classDecl decl =>
    exact Thins.bind_silent (heval.declareClass hvisits hfits (hquiet.resolve_right id))
      fun _ _ _ _ _ => Thins.pure .normal

/-- Expressions and statements do without what is left out what they do otherwise. -/
theorem thins_evaluate_execute (S : Thinning) (fuel : Nat) :
    ThinsExprs S (evaluate fuel) (evaluateFlat S.flat fuel) (evaluateTrace .frames fuel) ∧
      ThinsStmts S (execute fuel) (executeFlat S.flat fuel) (executeTrace .frames fuel) := by
  induction fuel with
  | zero => exact ⟨fun _ _ _ _ _ _ => Thins.outOfFuel, fun _ _ _ _ _ _ _ => Thins.outOfFuel⟩
  | succ fuel ih => exact ⟨thins_evaluateWith ih.1 ih.2, thins_executeFlatWith ih.1 ih.2⟩

end

end Lox
