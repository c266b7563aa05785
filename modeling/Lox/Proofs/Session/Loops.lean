import Lox.Proofs.Machine.ThinRuns
import Lox.Proofs.Session.Moments

/-!
# Loops in sessions

The tree of a `for` loop puts its body and its increment into a block, and so each round makes a
frame. The body of a loop declares nothing where it stands, so this frame never gets a name, and
whether it is there makes no difference: executing the tree does what the loop says, run directly
on the machine from which the frames of rounds are left out, with the distances that there are
without the scopes of rounds.
-/

namespace Lox

open Exec

variable {m : Machine} {S : Thinning} {chain : Chain} {s : Session} {steps : List Step}

/-! ## Results -/

/-- What a step gives, on another machine. -/
def Exec.resultOn {α : Type} (f : Machine → Machine) :
    EStateM.Result Halt Machine α → EStateM.Result Halt Machine α
  | .ok a m => .ok a (f m)
  | .error halt m => .error halt (f m)

theorem Exec.exists_of_resultOn_eq_error {α : Type} {f : Machine → Machine}
    {r : EStateM.Result Halt Machine α} {halt : Halt} (h : resultOn f r = .error halt m) :
    ∃ m', r = .error halt m' := by
  cases r with
  | ok c m' => cases h
  | error halt' m' =>
    cases h
    exact ⟨m', rfl⟩

/-- Where no functions are left out, values stay as they are. -/
theorem Thinning.value_of_drops (h : ∀ f, S.drops f = false) (v : Value) : S.value v = v := by
  cases v with
  | function f =>
    have hf : S.function f = f := rank_of_forall fun g _ => by simp [h g]
    rw [value, hf]
  | _ => rfl

theorem Thinning.Results.eq_resultOn (hS : ∀ f, S.drops f = false)
    {r r' : EStateM.Result Halt Machine Completion} (h : S.Results chain S.Completions r r') :
    r' = resultOn S.machine r := by
  cases h with
  | error => rfl
  | ok hc =>
    cases hc with
    | normal => rfl
    | returned hv =>
      obtain rfl := hv.1
      rw [S.value_of_drops hS]
      rfl

/-- A machine from which things may be left out is left as one, however a step ends. -/
theorem Thinning.Results.at_after {α α' : Type} {R : α → α' → Prop} {p : Exec α}
    {r' : EStateM.Result Halt Machine α'} (h : S.Results chain R (p m) r') :
    S.At chain (p.after m) := by
  unfold Exec.after
  generalize p m = r at h
  cases h with
  | error hm => exact hm
  | ok _ hm => exact hm

namespace Session

/-! ## The frames of flat blocks -/

/-- A frame was made for a flat block. -/
def isElided (flat : List Stmt → Bool) (events : List Event) (i : FrameId) : Bool :=
  i != globalFrame && events.any fun
    | .opened j region _ => j == i && region.isFlat flat
    | .referred .. => false

/-- Leave out the frames of flat blocks that the events tell of. The distances of the given nodes
are those that there are without the scopes of flat blocks. -/
def direct {flat : List Stmt → Bool} (hflat : Flattens flat) (events : List Event)
    (vs : List Visit) (source : Locals) : Thinning where
  flat := flat
  skips := isElided flat events
  drops _ := false
  firstFrame := 0
  firstFunction := 0
  source := source
  target := (∅ : Locals).noteAll (vs.map (Visit.direct flat))
  global := rfl
  kept _ _ := rfl
  quiet := hflat

/-- What is known of all that happens in a session and of all nodes of its programs: no frame is made
twice, the global frame is there from the start, a number says where its node stands, and the scopes
of flat blocks do not matter. -/
structure Account (flat : List Stmt → Bool) (events : List Event) (vs : List Visit) : Prop where
  openings : (openings events).Nodup
  global : globalFrame ∉ Lox.openings events
  consistent : ∀ v ∈ vs, ∀ v' ∈ vs, v.id = v'.id → v = v'
  indifferent : ∀ v ∈ vs, v.Indifferent flat

namespace Account

variable {flat : List Stmt → Bool} {hflat : Flattens flat} {events before : List Event}
  {vs us : List Visit} {source : Locals} {heap : Heap}

/-- A frame is made once, so it is clear which region it is for. -/
theorem isElided_of_opened (h : Account flat events vs) {i : FrameId} {region : Region}
    {outer : Chain} (hi : .opened i region outer ∈ events) :
    isElided flat events i = region.isFlat flat := by
  have hne : i ≠ globalFrame := by
    rintro rfl
    exact h.global (List.mem_filterMap.2 ⟨_, hi, rfl⟩)
  rw [Bool.eq_iff_iff]
  simp only [isElided, Bool.and_eq_true, bne_iff_ne, ne_eq, hne, not_false_eq_true, true_and,
    List.any_eq_true]
  constructor
  · rintro ⟨e, he, hflat⟩
    cases e with
    | referred => cases hflat
    | opened j region' outer' =>
      simp only [Bool.and_eq_true, beq_iff_eq] at hflat
      obtain ⟨rfl, hflat⟩ := hflat
      rw [(opened_unique h.openings hi he).1]
      exact hflat
  · exact fun hflat => ⟨_, hi, by simp [hflat]⟩

/-- The frames that a part of the events tells of are known. -/
theorem knows (h : Account flat events vs) {during : List Event} (hsub : during ⊆ events) :
    (direct hflat events vs source).Knows during :=
  fun _ _ _ he _ => h.isElided_of_opened (hsub he)

/-- A chain that fits the scopes around code fits them without the frames of flat blocks. -/
theorem fits (h : Account flat events vs) {frames : Frames} {layers : List Layer}
    (hmatches : Matches frames before layers chain) (hbefore : before ⊆ events) :
    (direct hflat events vs source).Fits layers chain := by
  induction hmatches with
  | outermost => exact .outside (List.forall_mem_singleton.2 rfl)
  | inner hopened _ _ _ _ ih =>
    exact .inner (h.isElided_of_opened (hbefore hopened)) (fun _ => Nat.zero_le _) ih

/-- What is recorded for the nodes of programs allows to leave out the frames of flat blocks. -/
theorem passes (h : Account flat events vs) (hinv : Inv us before heap source) (hus : us ⊆ vs) :
    ∀ v ∈ us, (direct hflat events vs source).Passes v := by
  intro v hv
  have hbare := (h.indifferent v (hus hv)).bare
  have hsource : (direct hflat events vs source).source[v.id]? = Layers.depth? v.layers v.name :=
    hinv.recorded v hv
  refine ⟨?_, fun d hd => ?_, fun huse d hd => ?_⟩
  · have hagree : ∀ b ∈ vs.map (Visit.direct flat), b.id = v.id →
        b.depth = (Layers.depth? v.layers v.name).map (Layers.thin flat v.layers) := by
      intro b hb hid
      obtain ⟨v', hv', rfl⟩ := List.mem_map.1 hb
      obtain rfl := h.consistent v' hv' v (hus hv) hid
      exact hbare.depth?_filter v'.name
    rw [hsource]
    exact Locals.getElem?_noteAll hagree Std.TreeMap.getElem?_emptyc
      ⟨v.direct flat, List.mem_map_of_mem (hus hv), rfl⟩
  · rw [hsource] at hd
    exact hbare.solid hd
  · have hcls := hinv.allowed v hv
    rw [Visit.Allowed, huse] at hcls
    have hwithin := hinv.within v hv
    rw [hcls] at hwithin
    obtain ⟨d', receiver, decl, hd', hreceiver, -⟩ := hwithin.superclass
    rw [hsource, (h.indifferent v (hus hv)).superclass huse, hd'] at hd
    obtain rfl : d' = d := by simpa using hd
    intro l hl
    rw [hreceiver] at hl
    cases hl
    rfl

/-- The frames of flat blocks may be left out of a heap on which programs run, if they have no
names. -/
theorem sound (h : Account flat events vs) (hinv : Inv us before heap source) (hus : us ⊆ vs)
    (hbefore : before ⊆ events)
    (hollow : ∀ i, isElided flat events i = true → heap.frames.frame i = ∅) :
    (direct hflat events vs source).Sound heap where
  firstFrame := Nat.zero_le _
  firstFunction := Nat.zero_le _
  hollow i hi _ := hollow i hi
  bound _ _ _ _ _ := fun _ _ => rfl
  functions f _ := by
    rcases hinv.functions f with ⟨hchain, hbody, hinit⟩ | ⟨cls, layers, hmatches, -, -, hvisits, hinit⟩
    · refine ⟨.outside, [], .outside (by simp [hchain]), fun v hv => ?_, by simp [hinit]⟩
      rw [FunctionDecl.visits_eq, hbody] at hv
      cases hv
    · refine ⟨cls, layers, h.fits hmatches hbefore, fun v hv => h.passes hinv hus v (hvisits v hv),
        fun hi l hl => ?_⟩
      obtain ⟨m, outer, rfl⟩ := hinit hi
      cases hl
      rfl
  methods c name k hk := by
    obtain ⟨cls, layers, hmatches, -, -, hvisits⟩ := hinv.methods c name k hk
    exact ⟨cls, layers, h.fits hmatches hbefore, fun v hv => h.passes hinv hus v (hvisits v hv)⟩
  statics _ _ _ _ := fun _ _ => rfl
  fields _ _ _ _ := fun _ _ => rfl

end Account

/-! ## Sessions -/

theorem wellFormed_of_mem_programs {program : List Stmt} (h : program ∈ s.programs steps) :
    Stmts.WellFormed program := by
  induction steps generalizing s with
  | nil => cases h
  | cons step steps ih =>
    rcases List.mem_append.1 h with h | h
    · cases step with
      | run fuel source =>
        by_cases hruns : s.Runs source
        · simp only [Step.program?, if_pos hruns, Option.toList_some, List.mem_singleton] at h
          rw [h]
          exact hruns.2.statements.2
        · simp [Step.program?, hruns] at h
      | parse | reset | takeDiagnostics => simp [Step.program?] at h
    · exact ih h

variable {flat : List Stmt → Bool} {sink : Sink} {clock : Clock}

/-- The account of a session from its start on. -/
theorem account_initial (hflat : Flattens flat) (sink : Sink) (clock : Clock) (steps : List Step) :
    Account flat ((initial sink clock).events steps)
      (visits ((initial sink clock).programs steps)) where
  openings := by
    rw [(sound_after sink clock steps).inv.openings]
    exact List.nodup_range'
  global := by
    rw [(sound_after sink clock steps).inv.openings]
    simp [globalFrame]
  consistent := (sound_after sink clock steps).ranged.consistent
  indifferent v hv := by
    obtain ⟨program, hprogram, hv⟩ := List.mem_flatMap.1 hv
    exact Stmts.indifferent_visits hflat program (wellFormed_of_mem_programs hprogram) .nil
      (.inl Layers.solid_nil) v hv

/-- The machine behind a program is one from which things may be left out, if the machine before it
is. -/
theorem at_interpret {fuel : Nat} {ss : List Stmt} (hm : S.At m.chain m)
    (hknows : S.Knows (interpretTrace .frames fuel ss m))
    (hvisits : ∀ v ∈ Stmts.visits .outside [] ss, S.Passes v) (hfits : S.Fits [] m.chain) :
    S.At m.chain ((interpret fuel ss).after m) := by
  induction ss generalizing m with
  | nil => exact hm
  | cons s ss ih =>
    obtain ⟨hs, hss⟩ := List.forall_mem_append.1 hvisits
    have htop : Layers.after [] s = [] := by
      unfold Layers.after
      split <;> rfl
    rw [htop] at hss
    have hrun := (thins_evaluate_execute S fuel).2 s .outside [] m hs hfits (.inl Layers.solid_nil) hm
      (hknows.mono (List.subset_append_left _ _))
    rw [interpret, Exec.after_bind]
    rw [interpretTrace, Trace.andThen] at hknows
    have hat := hrun.at_after
    cases hresult : Lox.execute fuel s m with
    | error halt m' =>
      rw [Exec.after, hresult] at hat
      exact hat
    | ok c m' =>
      rw [Exec.after, hresult] at hat
      rw [hresult] at hknows
      have hrest := ih (m := m') (by rw [hat.chain]; exact hat)
        (hknows.mono (List.subset_append_right _ _)) hss (by rw [hat.chain]; exact hfits)
      rw [hat.chain] at hrest
      exact hrest

/-- The frames of flat blocks have no names behind a session, if they have none before it. -/
theorem Sound.hollow_after {ps : List (List Stmt)} {τ events : List Event} {vs : List Visit}
    (h : s.Sound ps τ) (hflat : Flattens flat) (haccount : Account flat events vs)
    (hvs : visits (ps ++ s.programs steps) ⊆ vs) (hevents : τ ++ s.events steps ⊆ events)
    (hollow : ∀ i, isElided flat events i = true → s.machine.heap.frames.frame i = ∅) :
    ∀ i, isElided flat events i = true → (s.after steps).machine.heap.frames.frame i = ∅ := by
  induction steps generalizing s ps τ with
  | nil => exact hollow
  | cons step steps ih =>
    rw [programs, ← List.append_assoc] at hvs
    rw [Session.events, ← List.append_assoc] at hevents
    refine ih (h.step step) hvs hevents ?_
    cases step with
    | parse | reset | takeDiagnostics => exact hollow
    | run fuel source =>
      by_cases hruns : s.Runs source
      · have hprepared := h.prepare hruns.2 s.log
        have hprogram : Step.program? s (.run fuel source) =
            some (read s.fresh source).statements := if_pos hruns
        have hrun : Step.events s (.run fuel source) =
            interpretTrace .frames fuel (read s.fresh source).statements (s.prepared source) :=
          if_pos hruns
        rw [hprogram, Option.toList_some, visits_append] at hvs
        rw [hrun] at hevents
        have hus : visits (ps ++ [(read s.fresh source).statements]) ⊆ vs :=
          fun v hv => hvs (List.mem_append_left _ hv)
        have hbefore : τ ⊆ events :=
          fun e he => hevents (List.mem_append_left _ (List.mem_append_left _ he))
        have hduring : interpretTrace .frames fuel (read s.fresh source).statements
            (s.prepared source) ⊆ events := fun e he => hevents (List.mem_append_left _ (List.mem_append_right _ he))
        have hinv := hprepared.inv
        have hchain : (s.prepared source).chain = globalChain := hprepared.chain
        have hend : (Step.apply s (.run fuel source)).machine =
            (interpret fuel (read s.fresh source).statements).after (s.prepared source) := by
          rw [Step.apply, run_of_clean hruns.1 hruns.2, machine_execute]
        have hat := at_interpret (S := direct hflat events vs (s.prepared source).locals)
          ⟨haccount.sound hinv hus hbefore hollow, rfl, rfl⟩ (haccount.knows hduring)
          (fun v hv => haccount.passes hinv hus v ?_) ?_
        · rw [hend]
          exact fun i hi => hat.heap.hollow i hi (Nat.zero_le _)
        · rw [visits_append]
          exact List.mem_append_right _ (by simpa [visits] using hv)
        · rw [hchain]
          exact .outside (List.forall_mem_singleton.2 rfl)
      · rw [Step.apply, run_of_not_clean fuel hruns, rejected]
        split <;> exact hollow

/-- The frames of flat blocks have no names at any moment of a session. Frames do not lose names, so
this is because they have none in the end. -/
theorem Moment.hollow {r : Run} {outer : List Run} (hflat : Flattens flat)
    (h : Moment (initial sink clock) steps (r :: outer)) :
    ∀ i, isElided flat ((initial sink clock).events steps) i = true →
      r.machine.heap.frames.frame i = ∅ := by
  intro i hi
  have hstart : ∀ j, isElided flat ((initial sink clock).events steps) j = true →
      (initial sink clock).machine.heap.frames.frame j = ∅ := by
    intro j hj
    have hj : j ≠ 0 := by simpa [isElided, globalFrame] using (Bool.and_eq_true_iff.1 hj).1
    obtain ⟨k, rfl⟩ := Nat.exists_eq_succ_of_ne_zero hj
    rfl
  have hend := (sound_initial sink clock).hollow_after hflat
    (account_initial hflat sink clock steps) (fun _ hv => hv) (fun _ he => he) hstart i hi
  have hgrows := h.observed.grows.frames
  refine Table.eq_empty_of_get? fun x => ?_
  by_cases hlt : i < r.machine.heap.frames.size
  · have hbound := hgrows.bound i hlt x
    rw [hend] at hbound
    simpa using hbound
  · have hout : ¬ i < r.machine.heap.frames.cells.size := hlt
    simp [Frames.frame, Array.getD, hout]

end Session

/-! ## Loops -/

/-- The blocks that are flat are those of rounds of loops: the body of a loop, which declares nothing
where it stands, and its increment. -/
def FlattensRounds (flat : List Stmt → Bool) : Prop :=
  ∀ b, flat b = true → ∃ body e, b = [body, .expression e] ∧ body.Quiet

theorem FlattensRounds.flattens {flat : List Stmt → Bool} (h : FlattensRounds flat) :
    Flattens flat := by
  intro b hb
  obtain ⟨body, e, rfl, hbody⟩ := h b hb
  exact List.forall_mem_cons.2 ⟨hbody, List.forall_mem_singleton.2 trivial⟩

theorem declared?_forLoop (init : Option Stmt) (condition increment : Option Expr) (body : Stmt) :
    (Stmt.forLoop init condition increment body).declared? = none := by
  cases init <;> rfl

/-- The block around an initializer and a loop is not flat. -/
theorem FlattensRounds.initializer {flat : List Stmt → Bool} (h : FlattensRounds flat) (s : Stmt)
    (condition increment : Option Expr) (body : Stmt) :
    flat [s, .rounds condition increment body] = false := by
  refine Bool.eq_false_iff.2 fun hflat => ?_
  obtain ⟨body', e, heq, -⟩ := h _ hflat
  cases heq

/-- At a moment of a session a `for` loop is executed. Executing its tree does what the loop says, run
directly on the machine without the frames that were made for rounds: it ends in the same way, prints
the same, and leaves the same heap but for these frames. The loop run directly gets as much fuel as
its tree, or so little that the tree has enough for what the loop does.

The blocks of rounds may be any of those in the programs, so that the loop is that of the text for
this loop only or for other loops as well. The frames that were made for them have no names at any
moment. -/
theorem forLoop_runs_directly {flat : List Stmt → Bool} (hflat : FlattensRounds flat) {sink : Sink}
    {clock : Clock} {steps : List Session.Step} {fuel : Nat} {init : Option Stmt}
    {condition increment : Option Expr} {body : Stmt} {m : Machine} {outer : List Run}
    (h : (Session.initial sink clock).Moment steps
      (⟨fuel, .execute (.forLoop init condition increment body), m⟩ :: outer))
    (hround : ∀ e, increment = some e → flat [body, .expression e] = true) :
    let s := Session.initial sink clock
    let S := Session.direct hflat.flattens (s.events steps) (Session.visits (s.programs steps))
      m.locals
    let tree := execute fuel (.forLoop init condition increment body) m
    let loop (n : Nat) :=
      runFor (evaluateFlat flat n) (executeFlat flat n) init condition increment body n
        (S.machine m)
    (∀ n, fuel ≤ n → (∀ m', tree ≠ .error .outOfFuel m') →
      loop n = resultOn S.machine tree) ∧
      (∀ n, 2 * n + 3 ≤ fuel → (∀ m', loop n ≠ .error .outOfFuel m') →
        loop n = resultOn S.machine tree) ∧
      ∀ r around, s.Moment steps (r :: around) →
        ∀ i, Session.isElided flat (s.events steps) i = true →
          r.machine.heap.frames.frame i = ∅ := by
  intro s S tree loop
  have haccount := Session.account_initial hflat.flattens sink clock steps
  obtain ⟨us, before, hplaced, hevents, hus⟩ := h.observed.placed
  obtain ⟨cls, layers, hwf, hvisits, -, hmatches⟩ := hplaced.task
  have hbefore : before ⊆ s.events steps := fun e he => hevents (List.mem_append_left _ he)
  have hduring : executeTrace .frames fuel (.forLoop init condition increment body) m ⊆
      s.events steps := fun e he => hevents (List.mem_append_right _ he)
  have hsound : S.Sound m.heap :=
    haccount.sound hplaced.inv hus hbefore (h.hollow hflat.flattens)
  have hfits : S.Fits layers m.chain := haccount.fits hmatches hbefore
  have hpasses : ∀ v ∈ (Stmt.forLoop init condition increment body).visits cls layers, S.Passes v :=
    fun v hv => haccount.passes hplaced.inv hus v (hvisits v hv)
  have hquiet : (Stmt.forLoop init condition increment body).Quiet :=
    hwf.quiet (declared?_forLoop init condition increment body)
  have htree : executeFlat flat fuel (.forLoop init condition increment body) (S.machine m) =
      resultOn S.machine tree :=
    ((thins_evaluate_execute S fuel).2 _ cls layers m hpasses hfits (.inr hquiet) ⟨hsound, rfl, rfl⟩
      (haccount.knows hduring)).eq_resultOn fun _ => rfl
  refine ⟨fun n hn hfuel => ?_, fun n hn hfuel => ?_, fun r around hr => hr.hollow hflat.flattens⟩
  · have hloop : Approximates (executeFlat flat fuel (.forLoop init condition increment body)) _ :=
      approximates_runFor hround (fun s => hflat.initializer s condition increment body) hn
    rw [← htree]
    refine hloop.eq_of_ne fun m' hm' => ?_
    rw [htree] at hm'
    obtain ⟨m'', hm''⟩ := exists_of_resultOn_eq_error hm'
    exact hfuel m'' hm''
  · have hloop : Approximates
        (runFor (evaluateFlat flat n) (executeFlat flat n) init condition increment body n)
        (executeFlat flat fuel (.forLoop init condition increment body)) :=
      runFor_approximates hround (fun s => hflat.initializer s condition increment body) (by omega)
    rw [← htree]
    exact (hloop.eq_of_ne hfuel).symm

/-- A loop in whose body a function captures the variable of the loop. -/
theorem forLoop_runs_directly_captured :
    let s := Session.initial {} {}
    let source := "for(var x=true;x;x=nil){fun f(){return x;}print f();}"
    let steps := [Session.Step.run 9 source]
    let flat : List Stmt → Bool := fun
      | [.block _, .expression _] => true
      | _ => false
    ∃ (hflat : FlattensRounds flat) (init : Stmt) (condition increment : Expr) (body : Stmt)
        (m m' : Machine) (outer : List Run),
      let S := Session.direct hflat.flattens (s.events steps) (Session.visits (s.programs steps))
        m.locals
      s.Moment steps
          (⟨9, .execute (.forLoop (some init) (some condition) (some increment) body), m⟩ :: outer) ∧
        execute 9 (.forLoop (some init) (some condition) (some increment) body) m =
          .ok .normal m' ∧
        m'.sink.lines = #["true"] ∧ m'.heap.frames.size = 5 ∧
        runFor (evaluateFlat flat 9) (executeFlat flat 9) (some init) (some condition)
          (some increment) body 9 (S.machine m) = .ok .normal (S.machine m') := by
  intro s source steps flat
  have hflat : FlattensRounds flat := by
    intro b hb
    simp only [flat] at hb
    split at hb
    · exact ⟨_, _, rfl, trivial⟩
    · cases hb
  let f : FunctionDecl :=
    ⟨.named "f", [], [.returnWith ⟨.symbol .kwReturn, "return", 1⟩ (some (.var 3 (.named "x")))]⟩
  let init : Stmt := .varDecl (.named "x") (some (.literal (.bool true)))
  let condition : Expr := .var 0 (.named "x")
  let increment : Expr := .assign 2 (.named "x") (.literal .nil)
  let body : Stmt := .block [.funDecl f, .print (.call (.var 4 (.named "f")) .paren [])]
  let program : List Stmt := [.forLoop (some init) (some condition) (some increment) body]
  let m₀ := (Machine.initial {} {}).noteAll
    [⟨0, "x", some 0⟩, ⟨3, "x", some 3⟩, ⟨4, "f", some 0⟩, ⟨2, "x", some 1⟩]
  have hstart : s.Moment steps [⟨9, .program program, m₀⟩] :=
    .first (by decide +kernel) (by decide +kernel) (by decide +kernel)
  have hmoment := hstart.begin .topLevel
  let printed (m : Machine) : Bool := m.sink.lines = #["true"] ∧ m.heap.frames.size = 5
  obtain ⟨m₁, hrun, hprinted⟩ : ∃ m₁,
      execute 9 (.forLoop (some init) (some condition) (some increment) body) m₀ =
        .ok .normal m₁ ∧ printed m₁ = true := by
    have hends : (execute 9 (.forLoop (some init) (some condition) (some increment) body) m₀).casesOn
        (motive := fun _ => Bool) (fun c m => c.casesOn (printed m) fun _ => false)
        (fun _ _ => false) = true := by decide +kernel
    generalize execute 9 _ m₀ = r at hends
    cases r with
    | error => cases hends
    | ok c m =>
      cases c with
      | normal => exact ⟨m, rfl, hends⟩
      | returned => cases hends
  obtain ⟨hlines, hsize⟩ := of_decide_eq_true hprinted
  refine ⟨hflat, init, condition, increment, body, m₀, m₁, [⟨9, .program program, m₀⟩], hmoment, hrun,
    hlines, hsize, ?_⟩
  have hdirect := (forLoop_runs_directly hflat hmoment (fun e he => by cases he; rfl)).1 9
    (Nat.le_refl 9) (fun m' => by rw [hrun]; exact fun h => by cases h)
  rw [hrun] at hdirect
  exact hdirect

end Lox
