import Lox.Proofs.Scope.Relabeling
import Lox.Proofs.Session.Agreement

/-!
# Sessions that go the same way

A session may have given numbers away that another one has not, and what they have run may stand
on other lines. If what they have run is alike, they go on in the same way: a source runs in one
if it does in the other, prints the same and ends the same. The nodes of sources that are read
have other numbers, and the faults of running programs are on other lines.
-/

namespace Lox

/-- What is recorded under other numbers. -/
theorem Locals.getElem?_noteAll_move {k : Nat} (bs : List Binding) {locals locals' : Locals}
    {id : NodeId} (h : locals'[id + k]? = locals[id]?) :
    (locals'.noteAll (bs.map (Binding.relabel (.move 0 k))))[id + k]? =
      (locals.noteAll bs)[id]? := by
  induction bs generalizing locals locals' with
  | nil => exact h
  | cons b bs ih =>
    refine ih ?_
    rw [getElem?_note, getElem?_note, h]
    simp [Binding.relabel, Relabeling.move]

namespace Session

theorem fresh_execute (fuel : Nat) (s : Session) (program : List Stmt) :
    (execute fuel s program).2.fresh = s.fresh := by
  unfold execute
  split
  · rfl
  · split <;> rfl

/-! ## Sessions with other numbers -/

/-- Which lines correspond to each other, and what is seen of a diagnostic. Such lines look the
same. -/
structure Sight where
  line : Nat → Nat → Prop
  view : Diagnostic → Diagnostic
  same : ∀ n n' fault, line n n' → view (.runtime n' fault) = view (.runtime n fault)

namespace Sight

def exact : Sight := ⟨Eq, id, fun _ _ _ h => by rw [h]⟩

/-- Any line looks like any other. -/
def blind : Sight := ⟨fun _ _ => True, Diagnostic.erase, fun _ _ _ _ => rfl⟩

/-- Nodes correspond to each other if their numbers are the same below `start`, and `k` apart from
there on. No names are changed. -/
def skipping (σ : Sight) (start k fresh : NodeId) (locals : Locals) : Likeness where
  old := ""
  new := ""
  old_ne := by decide
  new_ne := by decide
  same i j d := i < fresh ∧ j = (if i < start then i else i + k) ∧ locals[i]? = d
  line := σ.line

/-- The program stays on its lines where lines are moved to ones that look the same. -/
def Fits (σ : Sight) (k : Nat) (program : List Stmt) : Prop :=
  ∃ q : Nat → Nat, (∀ n, σ.line n (q n)) ∧
    Stmts.relabel ⟨q, k⟩ program = Stmts.relabel (.move 0 k) program

theorem fits_of_refl {σ : Sight} (h : ∀ n, σ.line n n) (k : Nat) (program : List Stmt) :
    σ.Fits k program := ⟨id, h, rfl⟩

end Sight

/-- The session `s'` is like `s`, but from `start` on it has left out `k` numbers. -/
structure Trails (σ : Sight) (start k : NodeId) (s s' : Session) : Prop where
  machine : ∃ marks,
    s.machine.Alike (σ.skipping start k s.fresh s.machine.locals) marks s'.machine
  log : s'.log.map σ.view = s.log.map σ.view
  fresh : s'.fresh = s.fresh + k
  le : start ≤ s.fresh

variable {σ : Sight} {start k : NodeId} {s s' : Session} {ps ps' : List (List Stmt)}
  {τ τ' : List Event}

namespace Trails

theorem withLog (h : Trails σ start k s s') {log log' : Log}
    (hlog : log'.map σ.view = log.map σ.view) :
    Trails σ start k { s with log := log } { s' with log := log' } :=
  ⟨h.machine, hlog, h.fresh, h.le⟩

theorem hadError_eq (h : Trails σ start k s s') : s'.log.hadError = s.log.hadError :=
  (congrArg Log.hadError h.log :)

theorem sink_eq (h : Trails σ start k s s') : s'.machine.sink = s.machine.sink := by
  obtain ⟨marks, halike⟩ := h.machine
  exact halike.sink

/-- What the sessions read has other numbers. -/
theorem read_eq (h : Trails σ start k s s') (source : String) :
    read s'.fresh source =
      ⟨Stmts.relabel (.move 0 k) (read s.fresh source).statements, (read s.fresh source).faults,
        (read s.fresh source).fresh + k⟩ := by
  rw [h.fresh]
  exact read_move s.fresh source k

/-- Both sessions take more numbers, and record the same distances for them. -/
theorem advance (h : Trails σ start k s s') (hs : s.Sound ps τ) (hs' : s'.Sound ps' τ')
    {fresh : NodeId} (bs : List Binding) (hle : s.fresh ≤ fresh)
    (hbs : ∀ b ∈ bs, s.fresh ≤ b.id ∧ b.id < fresh) {log log' : Log}
    (hlog : log'.map σ.view = log.map σ.view) :
    Trails σ start k ⟨s.machine.noteAll bs, log, fresh⟩
      ⟨s'.machine.noteAll (bs.map (Binding.relabel (.move 0 k))), log', fresh + k⟩ := by
  obtain ⟨marks, halike⟩ := h.machine
  have hkept : ∀ i < s.fresh, (s.machine.locals.noteAll bs)[i]? = s.machine.locals[i]? :=
    fun i hi => Locals.getElem?_noteAll_of_ne fun b hb =>
      Nat.ne_of_gt (Nat.lt_of_lt_of_le hi (hbs b hb).1)
  have hkept' : ∀ i < s'.fresh,
      (s'.machine.locals.noteAll (bs.map (Binding.relabel (.move 0 k))))[i]? =
        s'.machine.locals[i]? := by
    refine fun i hi => Locals.getElem?_noteAll_of_ne fun b' hb' => ?_
    obtain ⟨b, hb, rfl⟩ := List.mem_map.1 hb'
    have hid : s.fresh + k ≤ b.id + k := Nat.add_le_add_right (hbs b hb).1 k
    exact Nat.ne_of_gt (Nat.lt_of_lt_of_le (h.fresh ▸ hi) hid)
  refine ⟨⟨marks, ?_⟩, hlog, rfl, Nat.le_trans h.le hle⟩
  refine ⟨halike.heap.withSame ?_, halike.nonempty, halike.chain, halike.bounded, halike.depth,
    halike.sink, halike.clock, ?_⟩
  · rintro i j d ⟨hi, hj, hd⟩
    exact ⟨Nat.lt_of_lt_of_le hi hle, hj, (hkept i hi).trans hd⟩
  · rintro i j d ⟨hi, rfl, hd⟩
    refine ⟨hd, Eq.trans ?_ hd⟩
    by_cases hold : i < s.fresh
    · obtain ⟨-, hd'⟩ := halike.locals i _ _ ⟨hold, rfl, rfl⟩
      have hj : (if i < start then i else i + k) < s'.fresh := by
        rw [h.fresh]
        split
        · exact Nat.lt_of_lt_of_le hold (Nat.le_add_right _ _)
        · exact Nat.add_lt_add_right hold k
      exact (hkept' _ hj).trans (hd'.trans (hkept i hold).symm)
    · have hnew : s.fresh ≤ i := Nat.le_of_not_lt hold
      rw [if_neg (Nat.not_lt.2 (Nat.le_trans h.le hnew))]
      refine Locals.getElem?_noteAll_move bs ?_
      rw [hs.unrecorded i hnew, hs'.unrecorded (i + k) (h.fresh ▸ Nat.add_le_add_right hnew k)]

/-- The sessions run programs that are alike in the same way. -/
theorem execute (h : Trails σ start k s s') {program program' : List Stmt}
    (hs : s.Sound (ps ++ [program]) τ) (hwf : Stmts.WellFormed program)
    (hprogram : Stmts.Alike (σ.skipping start k s.fresh s.machine.locals) [] program program')
    (fuel : Nat) :
    (s'.execute fuel program').1 = (s.execute fuel program).1 ∧
      Trails σ start k (s.execute fuel program).2 (s'.execute fuel program').2 := by
  obtain ⟨marks, halike⟩ := h.machine
  obtain ⟨houtcome, hlog, marks₁, hev⟩ :=
    hs.execute_alike hwf halike hprogram σ.same h.log fuel
  refine ⟨houtcome, ⟨marks₁, ?_⟩, hlog, ?_, ?_⟩
  · rw [fresh_execute, hev.locals]
    exact hev.alike
  · rw [fresh_execute, fresh_execute, h.fresh]
  · rw [fresh_execute]
    exact h.le

/-- The two sessions are told the same faults when a source does not run. -/
theorem rejected (h : Trails σ start k s s') (hs : s.Sound ps τ) (hs' : s'.Sound ps' τ')
    (source : String) : Trails σ start k (s.rejected source) (s'.rejected source) := by
  have hle := le_fresh_read s.fresh source
  have hlooked : s'.Looked source ↔ s.Looked source := by
    rw [Looked, Looked, h.hadError_eq, h.read_eq]
  unfold Session.rejected complaints prepared
  rw [h.read_eq, faults_resolve_move, (resolve_relabel _).1]
  by_cases hl : s.Looked source
  · rw [if_pos hl, if_pos hl, if_pos (hlooked.2 hl), if_pos (hlooked.2 hl)]
    exact h.advance hs hs' _ hle (bounds_read _ _) (Log.map_reportAll_congr h.log _)
  · rw [if_neg hl, if_neg hl, if_neg (mt hlooked.1 hl), if_neg (mt hlooked.1 hl)]
    exact h.advance hs hs' [] hle (List.forall_mem_nil _) (Log.map_reportAll_congr h.log _)

theorem runs_iff (h : Trails σ start k s s') (source : String) :
    s'.Runs source ↔ s.Runs source := by
  rw [Runs, Runs, Clean, Clean, h.hadError_eq, h.read_eq, faults_resolve_move]

/-- Both sessions make the same of a source that runs, before they execute it. -/
theorem prepare (h : Trails σ start k s s') (hs : s.Sound ps τ) (hs' : s'.Sound ps' τ')
    {source : String} (hr : s.Runs source) (hfits : σ.Fits k (read s.fresh source).statements) :
    Trails σ start k ⟨s.prepared source, s.log, (read s.fresh source).fresh⟩
        ⟨s'.prepared source, s'.log, (read s.fresh source).fresh + k⟩ ∧
      Stmts.Alike (σ.skipping start k (read s.fresh source).fresh (s.prepared source).locals) []
        (read s.fresh source).statements
        (Stmts.relabel (.move 0 k) (read s.fresh source).statements) := by
  obtain ⟨hnumbered, hwf⟩ := hr.2.statements
  have hranged := hnumbered.ranged .outside []
  constructor
  · unfold prepared
    rw [h.read_eq, (resolve_relabel _).1]
    exact h.advance hs hs' _ hranged.le (bounds_read _ _) h.log
  · obtain ⟨q, hq, hsame⟩ := hfits
    rw [← hsame]
    have hnodes : ∀ v ∈ Stmts.visits .outside [] (read s.fresh source).statements,
        ∃ d, (σ.skipping start k (read s.fresh source).fresh (s.prepared source).locals).same
          v.id (v.id + k) d := by
      intro v hv
      obtain ⟨hge, hlt⟩ := hranged.bounds v hv
      exact ⟨_, hlt, (if_neg (Nat.not_lt.2 (Nat.le_trans h.le hge))).symm, rfl⟩
    exact Stmts.alike_relabel (q := ⟨q, k⟩) hq (List.forall_mem_nil _) _ hwf hnodes

/-- Both sessions run a source in the same way. -/
theorem run (h : Trails σ start k s s') (hs : s.Sound ps τ) (hs' : s'.Sound ps' τ') (fuel : Nat)
    (source : String) (hfits : s.Runs source → σ.Fits k (read s.fresh source).statements) :
    (s'.run fuel source).1 = (s.run fuel source).1 ∧
      Trails σ start k (s.run fuel source).2 (s'.run fuel source).2 := by
  by_cases hr : s.Runs source
  · have hr' := (h.runs_iff source).2 hr
    obtain ⟨hadvance, hprogram⟩ := h.prepare hs hs' hr (hfits hr)
    rw [run_of_clean hr.1 hr.2, run_of_clean hr'.1 hr'.2, h.read_eq]
    exact hadvance.execute (hs.prepare hr.2 s.log) hr.2.statements.2 hprogram fuel
  · rw [run_of_not_clean fuel hr, run_of_not_clean fuel (mt (h.runs_iff source).1 hr)]
    exact ⟨rfl, h.rejected hs hs' source⟩

end Trails

/-! ## What can be seen -/

/-- An answer with other numbers. -/
def Reply.move (k : Nat) : Reply → Reply
  | read program => read (Stmts.relabel (.move 0 k) program)
  | reply => reply

def Observation.move (k : Nat) (o : Observation) : Observation :=
  { o with reply := o.reply.move k }

@[simp] theorem Observation.map_id (o : Observation) : o.map id = o := by
  obtain ⟨reply, printed, log⟩ := o
  cases reply <;> simp [Observation.map, Reply.map]

/-- Both sessions take a step in the same way. -/
theorem Trails.step (h : Trails σ start k s s') (hs : s.Sound ps τ) (hs' : s'.Sound ps' τ')
    (step : Step) (hfits : ∀ program, step.program? s = some program → σ.Fits k program) :
    (step.reply s').map σ.view = ((step.reply s).move k).map σ.view ∧
      Trails σ start k (step.apply s) (step.apply s') := by
  cases step with
  | run fuel source =>
    obtain ⟨houtcome, hsession⟩ := h.run hs hs' fuel source fun hruns => hfits _ (if_pos hruns)
    exact ⟨congrArg Reply.ran houtcome, hsession⟩
  | parse source =>
    simp only [Step.reply, Step.apply, parse, h.read_eq]
    exact ⟨rfl, h.advance hs hs' [] (le_fresh_read s.fresh source) (List.forall_mem_nil _)
      (Log.map_reportAll_congr h.log _)⟩
  | reset => exact ⟨rfl, h.withLog rfl⟩
  | takeDiagnostics =>
    obtain ⟨hds, herror, hruntime⟩ := Log.mk.inj h.log
    refine ⟨congrArg Reply.took hds, h.withLog ?_⟩
    simp only [Log.map, herror, hruntime]

/-- Whatever is done with the two sessions, only the numbers of nodes differ, and what is not seen
of diagnostics. -/
theorem Trails.observations (h : Trails σ start k s s') (hs : s.Sound ps τ) (hs' : s'.Sound ps' τ')
    (hrefl : ∀ n, σ.line n n) (later : List Step) :
    (s'.observations later).map (Observation.map σ.view) =
      ((s.observations later).map (Observation.move k)).map (Observation.map σ.view) := by
  induction later generalizing s s' ps ps' τ τ' with
  | nil => rfl
  | cons step later ih =>
    obtain ⟨hreply, hsession⟩ := h.step hs hs' step fun p _ => Sight.fits_of_refl hrefl k p
    simp only [Session.observations, List.map_cons, Observation.map, Observation.move, hreply,
      hsession.sink_eq, hsession.log]
    rw [ih hsession (hs.step step) (hs'.step step)]

/-- A machine on which distances are recorded for numbers that no node has yet is like the
machine. -/
theorem Sound.alike_noteAll (h : s.Sound ps τ) (hrefl : ∀ n, σ.line n n) {bs : List Binding}
    (hbs : ∀ b ∈ bs, s.fresh ≤ b.id) (hkept : s.fresh ≤ start ∨ k = 0) :
    s.machine.Alike (σ.skipping start k s.fresh s.machine.locals) .none
      (s.machine.noteAll bs) := by
  have hnumber : ∀ i < s.fresh, (if i < start then i else i + k) = i := by
    intro i hi
    rcases hkept with hle | rfl
    · exact if_pos (Nat.lt_of_lt_of_le hi hle)
    · exact ite_self _
  refine h.machine_alike hrefl (fun v hv => ?_) ?_
  · have hlt := (h.ranged.bounds v hv).2
    exact ⟨_, hlt, (hnumber _ hlt).symm, rfl⟩
  · rintro i j d ⟨hi, rfl, hd⟩
    rw [hnumber i hi]
    refine ⟨hd, Eq.trans ?_ hd⟩
    exact Locals.getElem?_noteAll_of_ne fun b hb => Nat.ne_of_gt (Nat.lt_of_lt_of_le hi (hbs b hb))

end Session

end Lox
