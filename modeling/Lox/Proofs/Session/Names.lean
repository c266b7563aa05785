import Lox.Proofs.Session.History

/-!
# Names mean what the text says

Two results about every session and every program that runs in it. No program meets a fault
that a wrong binding would cause, and a variable that is not defined is a global one. And
wherever a node refers to a variable, the current chain of frames mirrors the scopes around the
node: the frame at the recorded distance is the one that was made for the scope that declares
the name.
-/

namespace Lox

/-! ## Frames and the scopes they were made for -/

section

variable {events : List Event} {layers : List Layer} {chain : Chain}

/-- In front of the global frame there are as many frames as there are scopes. -/
theorem Stands.exists_frames (h : Stands events layers chain) :
    ∃ frames, chain = frames ++ globalChain ∧ frames.length = layers.length := by
  induction h with
  | outermost => exact ⟨[], rfl, rfl⟩
  | @inner l layers id outer _ _ ih =>
    obtain ⟨frames, rfl, hlength⟩ := ih
    exact ⟨id :: frames, rfl, by simp [hlength]⟩

/-- The frame for a scope was made for it, in front of those of the scopes around it. -/
theorem Stands.opened_mem (h : Stands events layers chain) {i : Nat} {l : Layer}
    (hl : layers[i]? = some l) :
    ∃ id, chain[i]? = some id ∧ .opened id l.region (chain.drop (i + 1)) ∈ events := by
  induction h generalizing i with
  | outermost => simp at hl
  | inner hopened _ ih =>
    cases i with
    | zero =>
      obtain rfl := Option.some.inj hl
      exact ⟨_, rfl, hopened⟩
    | succ i => exact ih hl

/-- No frame is made twice. -/
theorem opened_unique (h : (openings events).Nodup) {id : FrameId} {r r' : Region}
    {outer outer' : Chain} (hr : .opened id r outer ∈ events)
    (hr' : .opened id r' outer' ∈ events) : r = r' ∧ outer = outer' := by
  induction events with
  | nil => cases hr
  | cons e events ih =>
    have hmem : ∀ {r outer}, Event.opened id r outer ∈ events → id ∈ openings events :=
      fun h => List.mem_filterMap.2 ⟨_, h, rfl⟩
    cases e with
    | referred id' name chain distance =>
      exact ih h (by simpa using hr) (by simpa using hr')
    | opened id' r'' outer'' =>
      have hnodup : id' ∉ openings events ∧ (openings events).Nodup := List.nodup_cons.1 h
      rcases List.mem_cons.1 hr with heq | hin <;> rcases List.mem_cons.1 hr' with heq' | hin'
      · cases heq
        cases heq'
        exact ⟨rfl, rfl⟩
      · cases heq
        exact absurd (hmem hin') hnodup.1
      · cases heq'
        exact absurd (hmem hin) hnodup.1
      · exact ih hnodup.2 hin hin'

/-- The scope that declares a name: the innermost one that does. -/
theorem Layers.depth?_eq_some {name : String} {d : Nat} (h : Layers.depth? layers name = some d) :
    (∃ l, layers[d]? = some l ∧ name ∈ l.names) ∧
      ∀ i < d, ∀ l, layers[i]? = some l → name ∉ l.names := by
  refine ⟨Layers.getElem?_of_depth? h, fun i hi l hl => ?_⟩
  obtain ⟨hlt, -, hinner⟩ := List.findIdx?_eq_some_iff_getElem.1 h
  obtain ⟨hi', rfl⟩ := List.getElem?_eq_some_iff.1 hl
  simpa using hinner i hi

/-- No scope declares a name. -/
theorem Layers.depth?_eq_none {name : String} (h : Layers.depth? layers name = none) :
    ∀ l ∈ layers, name ∉ l.names := by
  intro l hl
  simpa using List.findIdx?_eq_none_iff.1 h l hl

/-- Frames in front of one chain. -/
theorem Stands.drop_eq {layers : List Layer} {k : Nat} {frame : FrameId} {region : Region}
    {outer : Chain} (hnodup : (openings events).Nodup) (hglobal : globalFrame ∉ openings events)
    (h : Stands events layers chain) (hframe : chain[k]? = some frame)
    (hopened : .opened frame region outer ∈ events) : outer = chain.drop (k + 1) := by
  obtain ⟨frames, hchain, hlength⟩ := h.exists_frames
  have hk : k < layers.length := by
    rw [← hlength]
    refine Nat.lt_of_not_le fun hle => hglobal ?_
    rw [hchain, List.getElem?_append_right hle] at hframe
    have hzero : globalFrame = frame := by
      cases hd : k - frames.length with
      | zero => simpa [hd, globalChain] using hframe
      | succ d => simp [hd, globalChain] at hframe
    rw [hzero]
    exact List.mem_filterMap.2 ⟨_, hopened, rfl⟩
  obtain ⟨id, hid, hmem⟩ := h.opened_mem (List.getElem?_eq_getElem hk)
  obtain rfl := Option.some.inj (hframe.symm.trans hid)
  exact (opened_unique hnodup hopened hmem).2

end

namespace Session

/-- The faults that programs meet. Whatever was done with a session before, a source that stops
with a fault reports one diagnostic more. It is about the output, or it is a fault that no wrong
binding causes. If it is an undefined variable, the last thing that the source did was to
refer to this variable at a node without a recorded distance, and the global frame does not have
the variable. -/
theorem run_fault_excused (sink : Sink) (clock : Clock) (steps : List Step) (fuel : Nat)
    (source : String)
    (h : (((initial sink clock).after steps).run fuel source).1 = .runtimeError) :
    let s := (initial sink clock).after steps
    let s' := (s.run fuel source).2
    (∃ fault, s'.log.diagnostics = s.log.diagnostics ++ [.output fault]) ∨
      ∃ line fault, s'.log.diagnostics = s.log.diagnostics ++ [.runtime line fault] ∧
        fault.isMisbinding = false ∧
          ∀ x, fault = .undefinedVariable x →
            (s'.machine.heap.frames.frame globalFrame).get? x = none ∧
              ∃ id name chain,
                (s.runEvents fuel source).getLast? = some (.referred id name chain none) ∧
                  name.lexeme = x ∧ name.line = line := by
  intro s s'
  by_cases hruns : s.Runs source
  · have hsafe := (sound_after sink clock steps).safe_interpret hruns.2 fuel
    unfold Safe at hsafe
    simp only [s', runEvents, if_pos hruns]
    change (s.run fuel source).1 = .runtimeError at h
    rw [run_of_clean hruns.1 hruns.2] at h ⊢
    unfold execute at h ⊢
    cases hrun : interpret fuel (read s.fresh source).statements (s.prepared source) with
    | ok a m =>
      rw [hrun] at h
      cases h
    | error halt m =>
      rw [hrun] at h hsafe
      cases halt with
      | fault line f => exact .inr ⟨line, f, rfl, hsafe.2⟩
      | output f => exact .inl ⟨f, rfl⟩
      | outOfFuel => cases h
  · change (s.run fuel source).1 = .runtimeError at h
    rw [run_of_not_clean fuel hruns] at h
    cases h

/-- A missing global variable, after a source that is not clean and one that stops. -/
theorem run_fault_excused_missing :
    let s := (initial {} {}).after [.run 9 "{ var a; }", .reset, .run 9 "g();"]
    let source := "fun h() { print missing; } h();"
    (s.run 9 source).1 = .runtimeError ∧
      ∃ id name chain, (s.runEvents 9 source).getLast? = some (.referred id name chain none) ∧
        name.lexeme = "missing" ∧ name.line = 1 := by
  have hrun : (((initial {} {}).after [.run 9 "{ var a; }", .reset, .run 9 "g();"]).run 9
      "fun h() { print missing; } h();").1 = .runtimeError := by decide +kernel
  have hlog : (((initial {} {}).after [.run 9 "{ var a; }", .reset, .run 9 "g();"]).run 9
      "fun h() { print missing; } h();").2.log.diagnostics =
        ((initial {} {}).after [.run 9 "{ var a; }", .reset, .run 9 "g();"]).log.diagnostics ++
          [.runtime 1 (.undefinedVariable "missing")] := by decide +kernel
  refine ⟨hrun, ?_⟩
  rcases run_fault_excused {} {} _ 9 _ hrun with ⟨fault, hf⟩ | ⟨line, fault, hf, -, hx⟩
  · rw [hlog] at hf
    have hd := List.append_cancel_left hf
    simp at hd
  · rw [hlog] at hf
    have hd := List.append_cancel_left hf
    simp only [List.cons.injEq, Diagnostic.runtime.injEq, and_true] at hd
    obtain ⟨rfl, rfl⟩ := hd
    exact (hx _ rfl).2

/-- No frame is made twice, and the global one not at all. -/
theorem Sound.nodup_openings {s : Session} {ps : List (List Stmt)} {τ : List Event}
    (h : s.Sound ps τ) : (openings τ).Nodup ∧ globalFrame ∉ openings τ := by
  rw [h.inv.openings]
  exact ⟨List.nodup_range', by simp [globalFrame]⟩

/-- The frames that references find. Whenever a node is evaluated that refers to a variable, it
is a node of a program that runs, and its number tells it apart. The recorded distance is the one
that it is bound with. In front of the global frame the current chain has one frame for each
scope around the node, and each frame was made for just this scope. If there is a distance, the
scope so many steps out is the innermost one that declares the name before the node; if there is
none, no scope does. So where a node is evaluated twice in calls that were made in front of one
chain, as all calls of one function value are, both evaluations see the same frames there. -/
theorem referred_mirrors_scopes (sink : Sink) (clock : Clock) (steps : List Step) (id : NodeId)
    (name : Token) (chain : Chain) (distance : Option Nat)
    (h : .referred id name chain distance ∈ (initial sink clock).events steps) :
    let programs := (initial sink clock).programs steps
    let events := (initial sink clock).events steps
    ∃ program ∈ programs, ∃ v ∈ Stmts.visits .outside [] program,
      (v.id = id ∧ v.name = name.lexeme ∧
        ∀ program' ∈ programs, ∀ v' ∈ Stmts.visits .outside [] program', v'.id = id → v' = v) ∧
      ⟨id, name.lexeme, distance⟩ ∈ (resolve program).bindings ∧
      (∃ frames, chain = frames ++ globalChain ∧ frames.length = v.layers.length) ∧
      (∀ i l, v.layers[i]? = some l → ∃ frame, chain[i]? = some frame ∧ ∀ region outer,
        .opened frame region outer ∈ events ↔ region = l.region ∧ outer = chain.drop (i + 1)) ∧
      (∀ d, distance = some d → (∃ l, v.layers[d]? = some l ∧ name.lexeme ∈ l.names) ∧
        ∀ i < d, ∀ l, v.layers[i]? = some l → name.lexeme ∉ l.names) ∧
      (distance = none → ∀ l ∈ v.layers, name.lexeme ∉ l.names) ∧
      ∀ name' chain' distance', .referred id name' chain' distance' ∈ events →
        distance' = distance ∧ ∀ (k d : Nat) frame frame' region region' outer,
          chain[k]? = some frame → .opened frame region outer ∈ events →
            chain'[k]? = some frame' → .opened frame' region' outer ∈ events →
              k < d → chain[d]? = chain'[d]? := by
  intro programs events
  have hsound := sound_after sink clock steps
  obtain ⟨hnodup, hglobal⟩ := hsound.nodup_openings
  obtain ⟨v, hv, rfl, hname, rfl, hstands⟩ := hsound.inv.placed _ h
  obtain ⟨program, hprogram, hvisit⟩ := List.mem_flatMap.1 hv
  have hunique : ∀ v' ∈ visits programs, v'.id = v.id → v' = v := fun v' hv' =>
    hsound.ranged.consistent v' hv' v hv
  refine ⟨program, hprogram, v, hvisit, ⟨rfl, hname, fun p' hp' v' hv' => ?_⟩, ?_,
    hstands.exists_frames, fun i l hl => ?_, fun d hd => ?_, fun hnone => ?_, ?_⟩
  · exact hunique v' (List.mem_flatMap.2 ⟨p', hp', hv'⟩)
  · rw [hsound.resolved program hprogram, ← hname]
    exact List.mem_map_of_mem hvisit
  · obtain ⟨frame, hframe, hopened⟩ := hstands.opened_mem hl
    refine ⟨frame, hframe, fun region outer => ⟨fun hmem => opened_unique hnodup hmem hopened, ?_⟩⟩
    rintro ⟨rfl, rfl⟩
    exact hopened
  · rw [← hname]
    exact Layers.depth?_eq_some hd
  · rw [← hname]
    exact Layers.depth?_eq_none hnone
  · intro name' chain' distance' h'
    obtain ⟨v', hv', hid, -, rfl, hstands'⟩ := hsound.inv.placed _ h'
    obtain rfl := hunique v' hv' hid
    refine ⟨rfl, fun k d frame frame' region region' outer hf ho hf' ho' hd => ?_⟩
    have hdrop := hstands.drop_eq hnodup hglobal hf ho
    have hdrop' := hstands'.drop_eq hnodup hglobal hf' ho'
    have hget : ∀ xs : Chain, xs[d]? = (xs.drop (k + 1))[d - (k + 1)]? := fun xs => by
      rw [List.getElem?_drop]
      congr 1
      omega
    rw [hget chain, hget chain', ← hdrop, ← hdrop']

/-- A function that refers to a global variable, called in a block that declares the same name
later. -/
theorem referred_mirrors_scopes_shadowed :
    let steps := [Step.run 20 "var a; { fun show() { print a; } show(); var a; show(); print a; }"]
    ∃ name, .referred 0 name [3, 1, 0] none ∈ (initial {} {}).events steps ∧
      ∃ program ∈ (initial {} {}).programs steps, ∃ v ∈ Stmts.visits .outside [] program,
        v.id = 0 ∧ v.layers.length = 2 ∧ ∀ l ∈ v.layers, name.lexeme ∉ l.names := by
  have htest : ((initial {} {}).events
      [.run 20 "var a; { fun show() { print a; } show(); var a; show(); print a; }"]).any (fun
        | .referred id _ chain none => id == 0 && chain == [3, 1, 0]
        | _ => false) = true := by decide +kernel
  obtain ⟨e, he, hmatch⟩ := List.any_eq_true.1 htest
  split at hmatch
  case h_1 id name chain =>
    obtain ⟨rfl, rfl⟩ : id = 0 ∧ chain = [3, 1, 0] := by simpa using hmatch
    obtain ⟨program, hp, v, hv, hid, -, ⟨frames, hframes, hlength⟩, -, -, hnone, -⟩ :=
      referred_mirrors_scopes {} {} _ 0 name _ none he
    have htwo : frames.length = 2 := by
      have := congrArg List.length hframes
      simp only [List.length_append, globalChain, List.length_cons, List.length_nil] at this
      omega
    exact ⟨name, he, program, hp, v, hv, hid.1, hlength.symm.trans htwo, hnone rfl⟩
  case h_2 => cases hmatch

end Session

end Lox
