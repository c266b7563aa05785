import Lox.Proofs.Machine.Context
import Lox.Proofs.Machine.Placement

/-!
# The function whose code runs

The code of a function runs in a chain that ends with the chain that the function sees. The frames
in front of that were made for the call and for the blocks around the code, and for nothing else.
-/

namespace Lox

/-- A frame was made for something other than a receiver. -/
def MadeForCode (events : List Event) (id : FrameId) : Prop :=
  ∃ region outer, .opened id region outer ∈ events ∧ ∀ method, region ≠ .receiver method

theorem MadeForCode.mono {events events' : List Event} {id : FrameId} (h : MadeForCode events id)
    (hsub : events ⊆ events') : MadeForCode events' id := by
  obtain ⟨region, outer, hmem, hregion⟩ := h
  exact ⟨region, outer, hsub hmem, hregion⟩

namespace Run

/-- The function that a run calls, if it is the call of one that a program declares. -/
def closure? (r : Run) : Option Closure :=
  match r.task with
  | .closure c _ => some c
  | _ => none

/-- The function whose code runs: the one that the innermost call is of. -/
def running? (stack : List Run) : Option Closure := stack.findSome? closure?

/-- The chain that the code of a run sees. -/
def chain (r : Run) : Chain :=
  match r.task with
  | .block chain _ => chain
  | _ => r.machine.chain

variable {r r' start : Run} {outer : List Run}

/-- Apart from calls, a run sees the chain of the run that begins it, or one more frame, which was
made for a block. -/
theorem chain_of_begins (h : r.Begins r') (hr : r.closure? = none) (hr' : r'.closure? = none) :
    r'.chain = r.chain ∨
      ∃ id body, r'.chain = id :: r.chain ∧ .opened id (.block body) r.chain ∈ r.events := by
  have heval {fuel e v m m'} (h : evaluate fuel e m = .ok v m') : m'.chain = m.chain :=
    (((restores_evaluate_execute fuel).1 e).of_ok h).chain
  have hexec {fuel s c m m'} (h : execute fuel s m = .ok c m') : m'.chain = m.chain :=
    (((restores_evaluate_execute fuel).2 s).of_ok h).chain
  cases h with
  | first | argument | expression | body | statement | topLevel | invoke => exact .inl rfl
  | binaryRight h | logicalRight h | thenValue h | elseValue h | fieldValue h | arguments h
  | laterArguments h | thenOnly h | thenBranch h | elseBranch h | round h =>
    exact .inl (heval h)
  | @call fuel _ _ es _ _ _ _ _ h hvs =>
    have hall := restores_evaluateAll (restores_evaluate_execute fuel).1 es
    exact .inl ((hall.of_ok hvs).chain.trans (heval h))
  | laterRounds h _ hbody => exact .inl ((hexec hbody).trans (heval h))
  | laterStatements h | laterProgram h => exact .inl (hexec h)
  | block => exact .inr ⟨_, _, rfl, List.mem_cons_self⟩
  | closure | initializer => cases hr'
  | closureBody => cases hr

/-- The body of a function sees one frame more than the function, and this was made for the
call. -/
theorem chain_of_begins_body {c : Closure} (h : r.Begins r') (hr : r.closure? = some c) :
    ∃ id, r'.chain = id :: c.chain ∧ .opened id (.call c.decl) c.chain ∈ r.events := by
  cases h with
  | closureBody =>
    cases hr
    exact ⟨_, rfl, List.mem_cons_self⟩
  | _ => cases hr

/-- The code of a function runs in a chain that ends with the chain that the function sees. None of
the frames in front of that was made for a receiver. -/
theorem exists_chain_of_active {vs : List Visit} {before : List Event} {c : Closure}
    (h : start.Active (r :: outer)) (hstart : start.Placed vs before) (hr : r.closure? = none)
    (hc : running? outer = some c) :
    ∃ inner, r.chain = inner ++ c.chain ∧ ∀ id ∈ inner, MadeForCode start.events id := by
  induction h using Active.stack_induction with
  | start =>
    cases hc
  | @begin q r outer h hbegins ih =>
    obtain ⟨mid, rest, -, hevents⟩ := placed_of_active h hstart
    have hsub : q.events ⊆ start.events := by
      rw [hevents]
      exact fun e he => List.mem_append_right _ (List.mem_append_left _ he)
    rw [running?, List.findSome?_cons] at hc
    cases hq : q.closure? with
    | some c' =>
      obtain rfl : c' = c := by simpa [hq] using hc
      obtain ⟨id, hchain, hopened⟩ := chain_of_begins_body hbegins hq
      exact ⟨[id], hchain, List.forall_mem_singleton.2 ⟨_, _, hsub hopened, nofun⟩⟩
    | none =>
      rw [hq] at hc
      obtain ⟨inner, hchain, hinner⟩ := ih hq hc
      rcases chain_of_begins hbegins hq hr with hsame | ⟨id, body, hmore, hopened⟩
      · exact ⟨inner, hsame.trans hchain, hinner⟩
      · refine ⟨id :: inner, by rw [hmore, hchain]; rfl, List.forall_mem_cons.2 ⟨?_, hinner⟩⟩
        exact ⟨_, _, hsub hopened, nofun⟩

end Run

end Lox
