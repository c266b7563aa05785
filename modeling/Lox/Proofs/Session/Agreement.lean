import Lox.Proofs.Machine.Execution
import Lox.Proofs.Session.Observation

/-!
# Sessions that run programs that are alike

The machine of a session is like itself, whatever the session has run before: its functions see
chains of frames that there are, and the nodes of the programs correspond to themselves. From
machines that are alike, programs that are alike run to the same end, since a program whose names
are bound does not stop with a misbinding.
-/

namespace Lox

variable {r : Likeness} {vs : List Visit} {events : List Event}

def Marks.none : Marks := fun _ => false

theorem Marks.fit_none (chain : Chain) : Marks.none.Fit chain [] := fun _ _ _ => rfl

/-- A function that fits the scopes around its declaration is like itself. -/
theorem Closure.Fits.alike {frames : Frames} {c : Closure} (hc : c.Fits vs frames events)
    (hline : ∀ n, r.line n n) (hsame : ∀ v ∈ vs, ∃ d, r.same v.id v.id d) :
    c.Alike r .none frames.size [] c := by
  rcases hc with ⟨hchain, hbody, -⟩ | ⟨cls, layers, hmatches, -, hwf, hvisits, -⟩
  · refine ⟨rfl, ?_, rfl, [], Marks.fit_none _, FunctionDecl.alike_of_body_nil hbody⟩
    simp [hchain]
  · exact ⟨rfl, hmatches.bounded, rfl, [], Marks.fit_none _,
      c.decl.alike_self hline (by simp) hwf fun v hv => hsame v (hvisits v hv)⟩

/-- So is a method. -/
theorem Closure.FitsMethod.alike {frames : Frames} {c : Closure}
    (hc : c.FitsMethod vs frames events) (hline : ∀ n, r.line n n)
    (hsame : ∀ v ∈ vs, ∃ d, r.same v.id v.id d) : c.Alike r .none frames.size [false] c := by
  obtain ⟨cls, layers, hmatches, -, hwf, hvisits⟩ := hc
  exact ⟨rfl, hmatches.bounded, rfl, [], Marks.fit_none _,
    c.decl.alike_self hline (by simp) hwf fun v hv => hsame v (hvisits v hv)⟩

/-- A heap behind programs whose nodes correspond to themselves is like itself. -/
theorem Inv.heap_alike {heap : Heap} {locals : Locals} (h : Inv vs events heap locals)
    (hline : ∀ n, r.line n n) (hsame : ∀ v ∈ vs, ∃ d, r.same v.id v.id d) :
    heap.Alike r .none heap where
  frames_size := rfl
  frames i x _ := by rw [Marks.none, NameChange.name_false]
  globals := rfl
  functions_size := rfl
  functions f := (h.functions f).alike hline hsame
  classes_size := rfl
  classes c := by
    refine ⟨rfl, rfl, rfl, fun x => ?_⟩
    cases hm : (heap.cls c).methods.get? x with
    | none => exact .none
    | some method => exact .some ((h.methods c x method hm).alike hline hsame)
  instances := rfl

namespace Session

variable {s s' : Session} {ps : List (List Stmt)} {τ : List Event} {marks : Marks}

/-- The machine of a session is like itself with other distances recorded, if they are the same for
nodes that correspond to each other. -/
theorem Sound.machine_alike (h : s.Sound ps τ) {locals : Locals} (hline : ∀ n, r.line n n)
    (hsame : ∀ v ∈ visits ps, ∃ d, r.same v.id v.id d)
    (hlocals : ∀ i j d, r.same i j d → s.machine.locals[i]? = d ∧ locals[j]? = d) :
    s.machine.Alike r .none { s.machine with locals := locals } where
  heap := h.inv.heap_alike hline hsame
  nonempty := h.inv.size
  chain := rfl
  bounded := by
    rw [h.chain]
    exact List.forall_mem_singleton.2 h.inv.size
  depth := rfl
  sink := rfl
  clock := rfl
  locals := hlocals

/-- Programs that are alike run to the same end on machines that are alike. -/
theorem Sound.interpret_alike {program program' : List Stmt} (h : s.Sound (ps ++ [program]) τ)
    (hwf : Stmts.WellFormed program) {m : Machine} (hmachine : s.machine.Alike r marks m)
    (hprogram : Stmts.Alike r [] program program') (fuel : Nat) :
    ∃ marks₁ m₁ m₁', Evolves r marks marks₁ s.machine m m₁ m₁' ∧
      (interpret fuel program s.machine = .ok () m₁ ∧ interpret fuel program' m = .ok () m₁' ∨
        ∃ halt halt', halt.Alike r halt' ∧ interpret fuel program s.machine = .error halt m₁ ∧
          interpret fuel program' m = .error halt' m₁') := by
  have hfit : marks.Fit s.machine.chain [] := by
    rw [h.chain]
    intro d i hi
    obtain rfl := List.mem_singleton.1 (List.mem_of_getElem? hi)
    exact hmachine.heap.globals
  have hsafe := h.safe_last hwf fuel
  unfold Safe at hsafe
  cases agrees_interpret fuel hmachine hfit hprogram with
  | misbound hrun hfault =>
    rw [hrun] at hsafe
    simp [hsafe.2.1] at hfault
  | ended hrun hrun' hev _ => exact ⟨_, _, _, hev, .inl ⟨hrun, hrun'⟩⟩
  | halted hrun hrun' hhalt hev => exact ⟨_, _, _, hev, .inr ⟨_, _, hhalt, hrun, hrun'⟩⟩

/-- So do sessions that have such machines. Their logs go on to be the same, as far as lines that
correspond to each other cannot be told apart in them. -/
theorem Sound.execute_alike {program program' : List Stmt} (h : s.Sound (ps ++ [program]) τ)
    (hwf : Stmts.WellFormed program) (hmachine : s.machine.Alike r marks s'.machine)
    (hprogram : Stmts.Alike r [] program program') {f : Diagnostic → Diagnostic}
    (hline : ∀ n n' fault, r.line n n' → f (.runtime n' fault) = f (.runtime n fault))
    (hlog : s'.log.map f = s.log.map f) (fuel : Nat) :
    (s'.execute fuel program').1 = (s.execute fuel program).1 ∧
      (s'.execute fuel program').2.log.map f = (s.execute fuel program).2.log.map f ∧
        ∃ marks₁, Evolves r marks marks₁ s.machine s'.machine (s.execute fuel program).2.machine
          (s'.execute fuel program').2.machine := by
  obtain ⟨marks₁, m₁, m₁', hev, ⟨hrun, hrun'⟩ | ⟨halt, halt', hhalt, hrun, hrun'⟩⟩ :=
    h.interpret_alike hwf hmachine hprogram fuel
  · unfold execute
    rw [hrun, hrun']
    exact ⟨rfl, hlog, _, hev⟩
  · unfold execute
    rw [hrun, hrun']
    cases hhalt with
    | fault hn => exact ⟨rfl, Log.map_stop_congr hlog (hline _ _ _ hn), _, hev⟩
    | output => exact ⟨rfl, Log.map_stop_congr hlog rfl, _, hev⟩
    | outOfFuel => exact ⟨rfl, hlog, _, hev⟩

end Session

end Lox
