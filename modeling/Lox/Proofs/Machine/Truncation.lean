import Lox.Proofs.Machine.Context

/-!
# Sinks that fail

Only the steps that print a line use the sink of a machine. So with a sink that fails at some line,
a run does what it does with a sink that takes all lines, up to the moment at which this line is
printed. There it halts. Nothing catches the halt, so the machine that is left is the one of this
moment, but for the chain and the number of calls, which every construct on the way out restores.
-/

namespace Lox

/-! ## Sinks -/

namespace Sink

/-- How a sink fails: it takes no line any more, or it takes a line and cannot flush. -/
inductive Failure where
  | closing
  | flushing
  deriving DecidableEq, Repr

/-- The fault that a failing sink answers with. -/
def Failure.fault : Failure → OutputFault
  | closing => .sinkClosed
  | flushing => .flushFailed

/-- How many lines are kept of the one at which the sink fails. -/
def Failure.kept : Failure → Nat
  | closing => 0
  | flushing => 1

def working (s : Sink) : Sink := { s with closeAfter := none, failFlushAfter := none }

/-- The sink, if it fails once it has been flushed `limit` times. -/
def failing (s : Sink) (failure : Failure) (limit : Nat) : Sink :=
  match failure with
  | .closing => { s with closeAfter := some limit, failFlushAfter := none }
  | .flushing => { s with closeAfter := none, failFlushAfter := some limit }

/-- The sink after some more lines, each of them flushed. -/
def taking (s : Sink) (lines : List String) : Sink :=
  { s with lines := s.lines ++ lines.toArray, flushes := s.flushes + lines.length }

def Grows (s s' : Sink) : Prop := ∃ lines, s' = s.taking lines

variable {s s' s'' : Sink} {failure : Failure} {limit : Nat} {line : String}

@[simp] theorem taking_nil : s.taking [] = s := by simp [taking]

theorem taking_append (first second : List String) :
    s.taking (first ++ second) = (s.taking first).taking second := by
  simp [taking, Nat.add_assoc]

@[simp] theorem flushes_taking (lines : List String) :
    (s.taking lines).flushes = s.flushes + lines.length := rfl

@[simp] theorem failing_working : s.working.failing failure limit = s.failing failure limit := by
  cases failure <;> rfl

theorem taking_injective {first second : List String} (h : s.taking first = s.taking second) :
    first = second := by
  have hlines := congrArg (fun s => s.lines.toList) h
  simpa [taking] using hlines

theorem Grows.refl : s.Grows s := ⟨[], by simp⟩

theorem Grows.trans (h : s.Grows s') (h' : s'.Grows s'') : s.Grows s'' := by
  obtain ⟨first, rfl⟩ := h
  obtain ⟨second, rfl⟩ := h'
  exact ⟨first ++ second, (taking_append first second).symm⟩

theorem Grows.flushes_le (h : s.Grows s') : s.flushes ≤ s'.flushes := by
  obtain ⟨lines, rfl⟩ := h
  exact Nat.le_add_right _ _

theorem Grows.working (h : s.Grows s') (hs : s.working = s) : s'.working = s' := by
  obtain ⟨lines, rfl⟩ := h
  exact congrArg (fun s => taking s lines) hs

theorem writeLine_of_working (hs : s.working = s) : s.writeLine line = (none, s.taking [line]) := by
  rw [← hs]
  simp [writeLine, reached, Sink.working, taking]

theorem writeLine_failing_of_lt (h : s.flushes < limit) :
    (s.failing failure limit).writeLine line = (none, (s.taking [line]).failing failure limit) := by
  have hnot : ¬ limit ≤ s.flushes := Nat.not_le_of_lt h
  cases failure <;> simp [writeLine, reached, failing, taking, hnot]

theorem writeLine_failing_of_le (h : limit ≤ s.flushes) :
    (s.failing failure limit).writeLine line =
      (some failure.fault, { s.failing failure limit with
        lines := s.lines ++ ([line].take failure.kept).toArray }) := by
  cases failure <;> simp [writeLine, reached, failing, Failure.fault, Failure.kept, h]

/-- Behind some lines the sink is at its limit. -/
theorem writeLine_failing_taking (s : Sink) (failure : Failure) (front : List String)
    (line : String) :
    ((s.taking front).failing failure (s.flushes + front.length)).writeLine line =
      (some failure.fault, { s.failing failure (s.flushes + front.length) with
        lines := s.lines ++ (front ++ [line].take failure.kept).toArray
        flushes := s.flushes + front.length }) := by
  rw [writeLine_failing_of_le (Nat.le_of_eq (flushes_taking front).symm)]
  cases failure <;> simp [failing, taking]

end Sink

/-- The machine, if its sink fails once it has been flushed `limit` times. -/
def Machine.failing (m : Machine) (failure : Sink.Failure) (limit : Nat) : Machine :=
  { m with sink := m.sink.failing failure limit }

/-! ## What prints -/

namespace Run

/-- A run prints a value, when it has come to the given machine. -/
inductive Prints : Run → Value → Machine → Prop
  | statement {fuel e v m m'} (h : evaluate fuel e m = .ok v m') :
    Prints ⟨fuel + 1, .execute (.print e), m⟩ v m'
  | native {fuel vs m} : Prints ⟨fuel, .invoke (.native .printNative) vs, m⟩ (vs.headD .nil) m

/-- A run comes to a moment at which a value is printed on the given machine. -/
def ComesToPrint (r : Run) (v : Value) (m : Machine) : Prop :=
  ∃ inner outer, r.Active (inner :: outer) ∧ inner.Prints v m

theorem Active.of_begins {r r' : Run} {stack : List Run} (h : r'.Active stack)
    (hbegins : r.Begins r') : r.Active (stack ++ [r]) := by
  induction h with
  | start => exact .begin .start hbegins
  | begin _ hinner ih => exact .begin ih hinner

theorem Prints.comesToPrint {r : Run} {v : Value} {m : Machine} (h : r.Prints v m) :
    r.ComesToPrint v m := ⟨r, [], .start, h⟩

theorem ComesToPrint.of_begins {r r' : Run} {v : Value} {m : Machine} (hbegins : r.Begins r')
    (h : r'.ComesToPrint v m) : r.ComesToPrint v m := by
  obtain ⟨inner, outer, hactive, hprints⟩ := h
  exact ⟨inner, outer ++ [r], hactive.of_begins hbegins, hprints⟩

end Run

namespace Exec

variable {α β : Type} {m : Machine} {failure : Sink.Failure} {limit : Nat}

/-! ## Steps that do not use the sink -/

/-- What a step gives, with another machine. -/
def onMachine (g : Machine → Machine) :
    EStateM.Result Halt Machine α → EStateM.Result Halt Machine α
  | .ok a m => .ok a (g m)
  | .error halt m => .error halt (g m)

/-- A step does with another sink what it does with the sink of the machine, and leaves it. -/
def Blind (p : Exec α) : Prop :=
  ∀ m sink, p { m with sink := sink } = onMachine (fun m => { m with sink := sink }) (p m)

theorem Blind.sink_after {p : Exec α} (h : Blind p) (m : Machine) :
    (p.after m).sink = m.sink := by
  have hp := h m m.sink
  unfold after
  cases hrun : p m with
  | ok a m' =>
    rw [hrun] at hp
    obtain ⟨-, hm⟩ := EStateM.Result.ok.inj hp
    rw [hm]
  | error halt m' =>
    rw [hrun] at hp
    obtain ⟨-, hm⟩ := EStateM.Result.error.inj hp
    rw [hm]

theorem blind_pure (a : α) : Blind (pure a) := fun _ _ => rfl

theorem blind_fail (t : Token) (fault : RuntimeFault) : Blind (fail t fault : Exec α) :=
  fun _ _ => rfl

theorem blind_ofExcept (t : Token) (r : Except RuntimeFault α) : Blind (ofExcept t r) := by
  cases r with
  | ok a => exact blind_pure a
  | error fault => exact blind_fail t fault

theorem blind_outOfFuel : Blind (throw .outOfFuel : Exec α) := fun _ _ => rfl

theorem Blind.bind {p : Exec α} {f : α → Exec β} (hp : Blind p) (hf : ∀ a, Blind (f a)) :
    Blind (p >>= f) := by
  intro m sink
  simp only [Bind.bind, EStateM.bind, hp m sink]
  cases p m with
  | ok a m' => exact hf a m' sink
  | error halt m' => rfl

theorem Blind.map {p : Exec α} (hp : Blind p) (g : α → β) : Blind (g <$> p) := by
  intro m sink
  simp only [Functor.map, EStateM.map, hp m sink]
  cases p m <;> rfl

/-- A step that starts by looking at the machine, but not at its sink. -/
theorem blind_get_bind {f : Machine → Exec α} (hsink : ∀ m sink, f { m with sink := sink } = f m)
    (hf : ∀ m, Blind (f m)) : Blind (get >>= f) := by
  intro m sink
  rw [get_bind_apply, get_bind_apply, hsink]
  exact hf m m sink

theorem blind_withHeap (f : Heap → α × Heap) : Blind (withHeap f) := fun _ _ => rfl

theorem blind_defineIn (id : FrameId) (name : String) (v : Value) : Blind (defineIn id name v) :=
  fun _ _ => rfl

theorem blind_define (name : String) (v : Value) : Blind (define name v) := by
  refine blind_get_bind (fun _ _ => rfl) fun m => ?_
  cases m.chain with
  | nil => exact blind_pure ()
  | cons id outer => exact blind_defineIn id name v

theorem blind_assign (chain : Chain) (name : Token) (v : Value) : Blind (assign chain name v) :=
  blind_get_bind (fun _ _ => rfl) fun _ =>
    (blind_ofExcept name _).bind fun id => blind_defineIn id name.lexeme v

theorem blind_assignAt (distance : Nat) (name : Token) (v : Value) :
    Blind (assignAt distance name v) :=
  blind_get_bind (fun _ _ => rfl) fun _ =>
    (blind_ofExcept name _).bind fun id => blind_defineIn id name.lexeme v

theorem blind_readClock : Blind readClock := fun _ _ => rfl

theorem blind_lookUp (id : NodeId) (name : Token) : Blind (lookUp id name) := by
  refine blind_get_bind (fun _ _ => rfl) fun m => ?_
  cases m.locals[id]? with
  | some distance => exact blind_ofExcept name _
  | none => exact blind_ofExcept name _

theorem blind_overwrite (id : NodeId) (name : Token) (v : Value) : Blind (overwrite id name v) := by
  refine blind_get_bind (fun _ _ => rfl) fun m => ?_
  cases m.locals[id]? with
  | some distance => exact blind_assignAt distance name v
  | none => exact blind_assign globalChain name v

theorem blind_readMember (i : InstanceId) (member : Member) : Blind (readMember i member) := by
  cases member with
  | field v => exact blind_pure v
  | method c => exact (blind_withHeap fun h => h.bindMethod c (.instance_ i)).map _

theorem blind_getMember (start : ClassId) (i : InstanceId) (name : Token) :
    Blind (getMember start i name) := by
  refine blind_get_bind (fun _ _ => rfl) fun m => ?_
  cases m.heap.member? start i name.lexeme with
  | some member => exact blind_readMember i member
  | none => exact blind_fail name _

theorem blind_getProperty (object : Value) (name : Token) : Blind (getProperty object name) := by
  refine blind_get_bind (fun _ _ => rfl) fun m => ?_
  cases object with
  | instance_ i => exact blind_getMember _ i name
  | class_ c =>
    simp only
    cases m.heap.classField? c name.lexeme with
    | some v => exact blind_pure v
    | none => exact blind_fail name _
  | _ => exact blind_fail name _

theorem blind_superMember (id : NodeId) (keyword method : Token) :
    Blind (superMember id keyword method) := by
  refine blind_get_bind (fun _ _ => rfl) fun m => ?_
  cases m.locals[id]? with
  | none => exact blind_fail keyword _
  | some d =>
    cases d with
    | zero => exact blind_fail keyword _
    | succ distance =>
      refine (blind_ofExcept keyword _).bind fun superclass =>
        (blind_ofExcept keyword _).bind fun receiver => ?_
      cases superclass with
      | class_ c =>
        cases receiver with
        | instance_ i => exact blind_getMember c i method
        | _ => exact blind_fail keyword _
      | _ => exact blind_fail keyword _

theorem blind_methodChain (superclass : Option ClassId) : Blind (methodChain superclass) := by
  refine blind_get_bind (fun _ _ => rfl) fun m => ?_
  cases superclass with
  | none => exact blind_pure m.chain
  | some c => exact (blind_withHeap _).bind fun id => blind_pure (id :: m.chain)

theorem blind_staticTable (chain : Chain) (ds : List FunctionDecl) (fields : Table Value) :
    Blind (staticTable chain ds fields) := by
  induction ds generalizing fields with
  | nil => exact blind_pure fields
  | cons d ds ih => exact (blind_withHeap _).bind fun f => ih _

/-! ## Steps that are cut off -/

/-- With the failing sink a step halts at the moment at which the value `v` is printed on the
machine `m'`: all lines before this one are flushed, and it is the first line that is not. -/
structure CutAt (p : Exec α) (m : Machine) (failure : Sink.Failure) (limit : Nat) (v : Value)
    (m' : Machine) : Prop where
  flushes : m'.sink.flushes = limit
  before : m.sink.Grows m'.sink
  behind : (m'.sink.taking [m'.heap.text v]).Grows (p.after m).sink
  halts : ∃ chain depth, p (m.failing failure limit) = .error (.output failure.fault)
    { (writeLine v).after (m'.failing failure limit) with chain := chain, depth := depth }

theorem after_of_ok {p : Exec α} {a : α} {m' : Machine} (h : p m = .ok a m') : p.after m = m' := by
  rw [after, h]

section

variable {p : Exec α} {f : α → Exec β} {v : Value} {m' : Machine}

/-- The moment of the cut is the one at which the line behind the first `k` is printed. -/
theorem CutAt.sink_eq {k : Nat} {lines : List String}
    (h : CutAt p m failure (m.sink.flushes + k) v m')
    (hlines : (p.after m).sink = m.sink.taking lines) :
    m'.sink = m.sink.taking (lines.take k) ∧ lines[k]? = some (m'.heap.text v) := by
  obtain ⟨front, hfront⟩ := h.before
  obtain ⟨rest, hrest⟩ := h.behind
  have hlength := h.flushes
  rw [hfront, Sink.flushes_taking, Nat.add_left_cancel_iff] at hlength
  rw [hlines, hfront, ← Sink.taking_append, ← Sink.taking_append] at hrest
  obtain rfl := Sink.taking_injective hrest
  subst hlength
  simp [hfront]

/-- What the cut leaves: the lines before it, and the one at which the sink fails if this one is
kept. -/
theorem CutAt.exists_halt {k : Nat} {lines : List String}
    (h : CutAt p m failure (m.sink.flushes + k) v m')
    (hlines : (p.after m).sink = m.sink.taking lines) :
    ∃ chain depth, p (m.failing failure (m.sink.flushes + k)) = .error (.output failure.fault)
      { m' with
        chain := chain
        depth := depth
        sink := { m.sink.failing failure (m.sink.flushes + k) with
          lines := m.sink.lines ++ (lines.take (k + failure.kept)).toArray
          flushes := m.sink.flushes + k } } := by
  obtain ⟨hsink, hline⟩ := h.sink_eq hlines
  obtain ⟨chain, depth, hhalts⟩ := h.halts
  refine ⟨chain, depth, hhalts.trans ?_⟩
  have htake : lines.take (k + failure.kept) =
      lines.take k ++ [m'.heap.text v].take failure.kept := by
    cases failure with
    | closing => simp [Sink.Failure.kept]
    | flushing => simp [Sink.Failure.kept, List.take_add_one, hline]
  have hlength : (lines.take k).length = k := by
    have hflushes := h.flushes
    rw [hsink] at hflushes
    exact Nat.add_left_cancel hflushes
  have hwrite := m.sink.writeLine_failing_taking failure (lines.take k) (m'.heap.text v)
  rw [hlength, ← hsink, ← htake] at hwrite
  simp only [after, writeLine, Machine.failing, hwrite]

/-- If the first of two steps is cut off, the second one is not begun. -/
theorem CutAt.bind (h : CutAt p m failure limit v m')
    (hgrows : (p.after m).sink.Grows ((p >>= f).after m).sink) :
    CutAt (p >>= f) m failure limit v m' where
  flushes := h.flushes
  before := h.before
  behind := h.behind.trans hgrows
  halts := by
    obtain ⟨chain, depth, hp⟩ := h.halts
    refine ⟨chain, depth, ?_⟩
    simp only [Bind.bind, EStateM.bind, hp]

/-- If the first of two steps is as with the other sink, the second one is cut off. -/
theorem CutAt.bind_right {a : α} {m₁ : Machine} (h : CutAt (f a) m₁ failure limit v m')
    (hrun : p m = .ok a m₁) (hgrows : m.sink.Grows m₁.sink)
    (hsame : p (m.failing failure limit) = .ok a (m₁.failing failure limit)) :
    CutAt (p >>= f) m failure limit v m' where
  flushes := h.flushes
  before := hgrows.trans h.before
  behind := by
    rw [after_bind, hrun]
    exact h.behind
  halts := by
    obtain ⟨chain, depth, hf⟩ := h.halts
    refine ⟨chain, depth, ?_⟩
    simp only [Bind.bind, EStateM.bind, hsame, hf]

end

/-- A step prints some lines if the sink takes them. With a sink that fails later than that it does
the same, and otherwise it is cut off at one of the given moments. -/
structure Truncates (p : Exec α) (m : Machine) (moment : Value → Machine → Prop) : Prop where
  grows : m.sink.working = m.sink → m.sink.Grows (p.after m).sink
  same : m.sink.working = m.sink → ∀ failure limit, (p.after m).sink.flushes ≤ limit →
    p (m.failing failure limit) = onMachine (fun m => m.failing failure limit) (p m)
  cut : m.sink.working = m.sink → ∀ failure limit, m.sink.flushes ≤ limit →
    limit < (p.after m).sink.flushes → ∃ v m', moment v m' ∧ CutAt p m failure limit v m'

namespace Truncates

variable {p : Exec α} {moment : Value → Machine → Prop}

theorem mono {moment' : Value → Machine → Prop} (h : Truncates p m moment)
    (hmoment : ∀ v m', moment v m' → moment' v m') : Truncates p m moment' where
  grows := h.grows
  same := h.same
  cut hm failure limit hle hlt := by
    obtain ⟨v, m', hv, hcut⟩ := h.cut hm failure limit hle hlt
    exact ⟨v, m', hmoment v m' hv, hcut⟩

/-- The moments of a run are moments of the run that begins it. -/
theorem within {r r' : Run} (h : Truncates p m r'.ComesToPrint) (hbegins : r.Begins r') :
    Truncates p m r.ComesToPrint := h.mono fun _ _ => .of_begins hbegins

/-- A step that is blind to the sink never comes to the failure. -/
theorem of_blind (h : Blind p) : Truncates p m moment where
  grows _ := by
    rw [h.sink_after]
    exact .refl
  same _ failure limit _ := by
    have hsink := h.sink_after m
    unfold Machine.failing
    rw [h m]
    unfold after at hsink
    cases hrun : p m with
    | ok a m' =>
      rw [hrun] at hsink
      simp only [onMachine, hsink]
    | error halt m' =>
      rw [hrun] at hsink
      simp only [onMachine, hsink]
  cut _ failure limit hle hlt := by
    rw [h.sink_after] at hlt
    exact absurd hle (Nat.not_le_of_lt hlt)

theorem pure (a : α) : Truncates (pure a) m moment := of_blind (blind_pure a)

/-- A step that starts by looking at the machine, but not at its sink. -/
theorem get_bind {f : Machine → Exec β} (hsink : ∀ sink, f { m with sink := sink } = f m)
    (h : Truncates (f m) m moment) : Truncates (get >>= f) m moment where
  grows := h.grows
  same hm failure limit hle := by
    rw [get_bind_apply, get_bind_apply, Machine.failing, hsink]
    exact h.same hm failure limit hle
  cut hm failure limit hle hlt := by
    obtain ⟨v, m', hv, hcut⟩ := h.cut hm failure limit hle hlt
    refine ⟨v, m', hv, hcut.flushes, hcut.before, hcut.behind, ?_⟩
    rw [get_bind_apply, Machine.failing, hsink]
    exact hcut.halts

/-- One step and then another. The first one is cut off if the limit is below what it prints, and
otherwise the second one goes on where it ends. -/
theorem bind {f : α → Exec β} (hp : Truncates p m moment)
    (hf : ∀ a m', p m = .ok a m' → Truncates (f a) m' moment) : Truncates (p >>= f) m moment := by
  have hworking (hm : m.sink.working = m.sink) {a : α} {m' : Machine} (hrun : p m = .ok a m') :
      m'.sink.working = m'.sink := by
    have hgrows := hp.grows hm
    rw [after_of_ok hrun] at hgrows
    exact hgrows.working hm
  have hgrows (hm : m.sink.working = m.sink) :
      (p.after m).sink.Grows ((p >>= f).after m).sink := by
    rw [after_bind, after]
    cases hrun : p m with
    | ok a m' => exact (hf a m' hrun).grows (hworking hm hrun)
    | error halt m' => exact .refl
  refine ⟨fun hm => (hp.grows hm).trans (hgrows hm), fun hm failure limit hle => ?_,
    fun hm failure limit hle hlt => ?_⟩
  · have hsame := hp.same hm failure limit (Nat.le_trans (hgrows hm).flushes_le hle)
    rw [after_bind] at hle
    simp only [Bind.bind, EStateM.bind, hsame]
    cases hrun : p m with
    | ok a m' =>
      rw [hrun] at hle
      exact (hf a m' hrun).same (hworking hm hrun) failure limit hle
    | error halt m' => rfl
  · by_cases hleft : limit < (p.after m).sink.flushes
    · obtain ⟨v, m', hv, hcut⟩ := hp.cut hm failure limit hle hleft
      exact ⟨v, m', hv, hcut.bind (hgrows hm)⟩
    · have hpast := Nat.le_of_not_lt hleft
      have hsame := hp.same hm failure limit hpast
      rw [after_bind] at hlt
      cases hrun : p m with
      | ok a m' =>
        have hfirst := hp.grows hm
        rw [hrun] at hlt hsame
        rw [after_of_ok hrun] at hpast hfirst
        obtain ⟨v, m'', hv, hcut⟩ :=
          (hf a m' hrun).cut (hworking hm hrun) failure limit hpast hlt
        exact ⟨v, m'', hv, hcut.bind_right hrun hfirst hsame⟩
      | error halt m' =>
        rw [after, hrun] at hpast
        rw [hrun] at hlt
        exact absurd hpast (Nat.not_le_of_lt hlt)

/-- A step and then one that does not use the sink. -/
theorem bind_blind {f : α → Exec β} (hp : Truncates p m moment) (hf : ∀ a, Blind (f a)) :
    Truncates (p >>= f) m moment := hp.bind fun a _ _ => of_blind (hf a)

theorem withHeap_bind {f : Heap → α × Heap} {g : α → Exec β}
    (h : Truncates (g (f m.heap).1) { m with heap := (f m.heap).2 } moment) :
    Truncates (withHeap f >>= g) m moment := by
  refine (of_blind (blind_withHeap f)).bind fun a m' hrun => ?_
  obtain ⟨rfl, rfl⟩ := EStateM.Result.ok.inj hrun
  exact h

/-- A step that is run in another context, which is left however it ends. -/
theorem inContext {q : Exec α} {chain : Chain} {depth : Nat} (chainAfter : Chain → Chain)
    (depthAfter : Nat → Nat)
    (hq : ∀ sink, q { m with sink := sink } = onMachine
      (fun m' => { m' with chain := chainAfter m'.chain, depth := depthAfter m'.depth })
      (p { m with chain := chain, depth := depth, sink := sink }))
    (h : Truncates p { m with chain := chain, depth := depth } moment) : Truncates q m moment := by
  have hafter : (q.after m).sink = (p.after { m with chain := chain, depth := depth }).sink := by
    rw [after, hq m.sink, after]
    cases p { m with chain := chain, depth := depth } <;> rfl
  refine ⟨fun hm => ?_, fun hm failure limit hle => ?_, fun hm failure limit hle hlt => ?_⟩
  · rw [hafter]
    exact h.grows hm
  · rw [hafter] at hle
    have hp : p { m with chain := chain, depth := depth, sink := m.sink.failing failure limit } =
      _ := h.same hm failure limit hle
    rw [Machine.failing, hq, hp, hq m.sink]
    cases p { m with chain := chain, depth := depth } <;> rfl
  · rw [hafter] at hlt
    obtain ⟨v, m', hv, hcut⟩ := h.cut hm failure limit hle hlt
    refine ⟨v, m', hv, hcut.flushes, hcut.before, hafter ▸ hcut.behind, ?_⟩
    obtain ⟨chain', depth', hhalts⟩ := hcut.halts
    have hp : p { m with chain := chain, depth := depth, sink := m.sink.failing failure limit } =
      _ := hhalts
    exact ⟨chainAfter chain', depthAfter depth', by rw [Machine.failing, hq, hp]; rfl⟩

theorem inChain {chain : Chain} (h : Truncates p { m with chain := chain } moment) :
    Truncates (inChain chain p) m moment := by
  refine inContext (fun _ => m.chain) id (fun sink => ?_) h
  simp only [Exec.inChain]
  cases p { m with chain := chain, sink := sink } <;> rfl

theorem nested (h : Truncates p { m with depth := m.depth + 1 } moment) :
    Truncates (nested p) m moment := by
  refine inContext id (· - 1) (fun sink => ?_) h
  simp only [Exec.nested]
  cases p { m with depth := m.depth + 1, sink := sink } <;> rfl

/-- Printing a line is cut off at once if the sink is at its limit. -/
theorem writeLine {v : Value} (h : moment v m) : Truncates (writeLine v) m moment := by
  have hrun (hm : m.sink.working = m.sink) :
      Exec.writeLine v m = .ok () { m with sink := m.sink.taking [m.heap.text v] } := by
    simp only [Exec.writeLine, Sink.writeLine_of_working hm]
  refine ⟨fun hm => ?_, fun hm failure limit hle => ?_, fun hm failure limit hle hlt => ?_⟩
  · rw [after_of_ok (hrun hm)]
    exact ⟨_, rfl⟩
  · rw [after_of_ok (hrun hm)] at hle
    rw [hrun hm]
    simp only [Exec.writeLine, Machine.failing, Sink.writeLine_failing_of_lt hle, onMachine]
  · rw [after_of_ok (hrun hm)] at hlt
    have hlimit : m.sink.flushes = limit := Nat.le_antisymm hle (Nat.le_of_lt_succ hlt)
    refine ⟨v, m, h, hlimit, .refl, ?_, m.chain, m.depth, ?_⟩
    · rw [after_of_ok (hrun hm)]
      exact .refl
    · simp only [after, Exec.writeLine, Machine.failing,
        Sink.writeLine_failing_of_le (Nat.le_of_eq hlimit.symm)]

end Truncates

end Exec

/-! ## The evaluator -/

open Exec

variable {m : Machine} {fuel : Nat}

/-- A failing sink cuts off the end of each expression, and no more. -/
def TruncatesExprs (fuel : Nat) : Prop :=
  ∀ e m, Truncates (evaluate fuel e) m (Run.ComesToPrint ⟨fuel, .evaluate e, m⟩)

def TruncatesStmts (fuel : Nat) : Prop :=
  ∀ s m, Truncates (execute fuel s) m (Run.ComesToPrint ⟨fuel, .execute s, m⟩)

theorem truncates_evaluateAll (heval : TruncatesExprs fuel) (es : List Expr) :
    Truncates (evaluateAll (evaluate fuel) es) m
      (Run.ComesToPrint ⟨fuel, .evaluateAll es, m⟩) := by
  induction es generalizing m with
  | nil => exact .pure []
  | cons e es ih =>
    exact ((heval e m).within .argument).bind fun v _ hv =>
      (ih.within (.laterArguments hv)).bind_blind fun vs => blind_pure (v :: vs)

theorem truncates_executeAll (hexec : TruncatesStmts fuel) (ss : List Stmt) :
    Truncates (executeAll (execute fuel) ss) m
      (Run.ComesToPrint ⟨fuel, .executeAll ss, m⟩) := by
  induction ss generalizing m with
  | nil => exact .pure Completion.normal
  | cons s ss ih =>
    refine ((hexec s m).within .statement).bind fun completion m' hs => ?_
    cases completion with
    | normal => exact ih.within (.laterStatements hs)
    | returned v => exact .pure (Completion.returned v)

theorem truncates_executeInFrame (hexec : TruncatesStmts fuel) (frame : Frame) (chain : Chain)
    (body : List Stmt) :
    Truncates (executeInFrame (execute fuel) frame chain body) m
      (Run.ComesToPrint ⟨fuel, .block (m.heap.frames.next :: chain) body,
        { m with heap := (m.heap.newFrame frame).2 }⟩) :=
  .withHeap_bind (.inChain ((truncates_executeAll hexec body).within .body))

theorem truncates_runClosure (hexec : TruncatesStmts fuel) (c : Closure) (vs : List Value) :
    Truncates (runClosure (execute fuel) c vs) m (Run.ComesToPrint ⟨fuel, .closure c vs, m⟩) := by
  refine ((truncates_executeInFrame hexec _ c.chain c.decl.body).within .closureBody).bind_blind
    fun completion => ?_
  cases c.isInitializer with
  | true => exact blind_get_bind (fun _ _ => rfl) fun _ => blind_ofExcept _ _
  | false => cases completion <;> exact blind_pure _

theorem truncates_construct (hexec : TruncatesStmts fuel) (c : ClassId) (vs : List Value) :
    Truncates (construct (execute fuel) c vs) m
      (Run.ComesToPrint ⟨fuel, .invoke (.constructor c) vs, m⟩) := by
  refine .withHeap_bind (.get_bind (fun _ => rfl) ?_)
  cases hinit : (m.heap.newInstance c).2.initializer? c with
  | none => exact .pure _
  | some init =>
    exact .withHeap_bind (((truncates_runClosure hexec _ vs).within
      (.initializer rfl hinit rfl)).bind_blind fun _ => blind_pure _)

theorem truncates_invoke (hexec : TruncatesStmts fuel) (f : Callable) (vs : List Value) :
    Truncates (invoke (execute fuel) vs f) m (Run.ComesToPrint ⟨fuel, .invoke f vs, m⟩) := by
  cases f with
  | closure c => exact (truncates_runClosure hexec c vs).within .closure
  | native f =>
    cases f with
    | clock => exact .of_blind blind_readClock
    | printNative =>
      exact (Truncates.writeLine Run.Prints.native.comesToPrint).bind_blind fun _ => blind_pure _
  | constructor c => exact truncates_construct hexec c vs

/-- A call that is refused prints nothing. -/
theorem truncates_callValue (hexec : TruncatesStmts fuel) (callee : Value) (paren : Token)
    (vs : List Value) :
    Truncates (callValue (execute fuel) callee paren vs) m
      (Run.ComesToPrint ⟨fuel, .call callee paren vs, m⟩) := by
  refine .get_bind (fun _ => rfl) ?_
  cases hf : m.heap.callable? callee with
  | none => exact .of_blind (blind_fail paren _)
  | some f =>
    simp only
    by_cases harity : vs.length = m.heap.arity f
    · rw [if_neg (not_not_intro harity)]
      by_cases hdepth : maxCallDepth ≤ m.depth
      · rw [if_pos hdepth]
        exact .of_blind (blind_fail paren _)
      · rw [if_neg hdepth]
        exact .nested ((truncates_invoke hexec f vs).within
          (.invoke hf harity (Nat.lt_of_not_le hdepth)))
    · rw [if_pos harity]
      exact .of_blind (blind_fail paren _)

theorem truncates_declareClass (heval : TruncatesExprs fuel) (decl : ClassDecl) :
    Truncates (declareClass (evaluate fuel) decl) m
      (Run.ComesToPrint ⟨fuel + 1, .execute (.classDecl decl), m⟩) := by
  have hsuper : Truncates (superclassOf (evaluate fuel) decl.name decl.superclass) m
      (Run.ComesToPrint ⟨fuel + 1, .execute (.classDecl decl), m⟩) := by
    cases hclause : decl.superclass with
    | none => exact .pure none
    | some e =>
      have hmem : e ∈ (Stmt.classDecl decl).expressions := by
        simp [Stmt.expressions, hclause]
      refine ((heval e m).within (.expression hmem)).bind_blind fun v => ?_
      cases v with
      | class_ c => exact blind_pure (some c)
      | _ => exact blind_fail _ _
  refine hsuper.bind_blind fun superclass => (blind_define _ _).bind fun _ =>
    (blind_methodChain superclass).bind fun chain =>
      (blind_staticTable chain decl.statics ∅).bind fun fields => (blind_withHeap _).bind fun c =>
        blind_get_bind (fun _ _ => rfl) fun m' => blind_assign m'.chain decl.name (.class_ c)

theorem truncates_setProperty {moment : Value → Machine → Prop} (object : Value) (name : Token)
    {value : Exec Value} (h : object.hasFields = true → Truncates value m moment) :
    Truncates (setProperty object name value) m moment := by
  cases object with
  | instance_ i =>
    exact (h rfl).bind_blind fun v => Blind.bind (fun _ _ => rfl) fun _ => blind_pure v
  | class_ c =>
    exact (h rfl).bind_blind fun v => Blind.bind (fun _ _ => rfl) fun _ => blind_pure v
  | _ => exact .of_blind (blind_fail name _)

/-- One amount of fuel more: expressions. -/
theorem truncates_evaluate_succ (heval : TruncatesExprs fuel) (hexec : TruncatesStmts fuel) :
    TruncatesExprs (fuel + 1) := by
  intro e m
  cases e with
  | literal l => exact .pure l.value
  | grouping inner => exact (heval inner m).within (.first rfl)
  | unary op operand =>
    exact ((heval operand m).within (.first rfl)).bind_blind fun _ => blind_ofExcept op _
  | binary left op right =>
    exact ((heval left m).within (.first rfl)).bind fun _ m' h =>
      ((heval right m').within (.binaryRight h)).bind_blind fun _ => blind_ofExcept op _
  | logical left op right =>
    refine ((heval left m).within (.first rfl)).bind fun a m' h => ?_
    cases hop : shortCircuits op a with
    | true => exact .pure a
    | false => exact (heval right m').within (.logicalRight h hop)
  | conditional c a b =>
    refine ((heval c m).within (.first rfl)).bind fun v m' h => ?_
    cases hv : v.isTruthy with
    | true => exact (heval a m').within (.thenValue h hv)
    | false => exact (heval b m').within (.elseValue h hv)
  | var id name => exact .of_blind (blind_lookUp id name)
  | assign id name value =>
    exact ((heval value m).within (.first rfl)).bind_blind fun v =>
      (blind_overwrite id name v).bind fun _ => blind_pure v
  | call callee paren arguments =>
    exact ((heval callee m).within (.first rfl)).bind fun f m' hf =>
      ((truncates_evaluateAll heval arguments).within (.arguments hf)).bind fun vs _ hvs =>
        (truncates_callValue hexec f paren vs).within (.call hf hvs)
  | get object name =>
    exact ((heval object m).within (.first rfl)).bind_blind fun v => blind_getProperty v name
  | set object name value =>
    exact ((heval object m).within (.first rfl)).bind fun v m' h =>
      truncates_setProperty v name fun hv => (heval value m').within (.fieldValue h hv)
  | thisRef id keyword => exact .of_blind (blind_lookUp id keyword)
  | superRef id keyword method => exact .of_blind (blind_superMember id keyword method)

/-- One amount of fuel more: statements. -/
theorem truncates_execute_succ (heval : TruncatesExprs fuel) (hexec : TruncatesStmts fuel) :
    TruncatesStmts (fuel + 1) := by
  intro s m
  cases s with
  | expression e =>
    exact ((heval e m).within (.expression (by simp [Stmt.expressions]))).bind_blind
      fun _ => blind_pure _
  | print e =>
    exact ((heval e m).within (.expression (by simp [Stmt.expressions]))).bind fun v m' h =>
      (Truncates.writeLine (Run.Prints.statement h).comesToPrint).bind_blind fun _ => blind_pure _
  | varDecl name value =>
    cases value with
    | none => exact .of_blind ((blind_define _ _).bind fun _ => blind_pure _)
    | some e =>
      exact ((heval e m).within (.expression (by simp [Stmt.expressions]))).bind_blind fun v =>
        (blind_define name.lexeme v).bind fun _ => blind_pure _
  | block body =>
    exact .get_bind (fun _ => rfl) ((truncates_executeInFrame hexec ∅ m.chain body).within .block)
  | ifThen c a =>
    refine ((heval c m).within (.expression (by simp [Stmt.expressions]))).bind fun v m' h => ?_
    cases hv : v.isTruthy with
    | true => exact (hexec a m').within (.thenOnly h hv)
    | false => exact .pure _
  | ifElse c a b =>
    refine ((heval c m).within (.expression (by simp [Stmt.expressions]))).bind fun v m' h => ?_
    cases hv : v.isTruthy with
    | true => exact (hexec a m').within (.thenBranch h hv)
    | false => exact (hexec b m').within (.elseBranch h hv)
  | whileLoop c body =>
    refine ((heval c m).within (.expression (by simp [Stmt.expressions]))).bind fun v m' h => ?_
    cases hv : v.isTruthy with
    | false => exact .pure _
    | true =>
      refine ((hexec body m').within (.round h hv)).bind fun completion m'' hbody => ?_
      cases completion with
      | returned v => exact .pure _
      | normal => exact (hexec (.whileLoop c body) m'').within (.laterRounds h hv hbody)
  | funDecl decl =>
    exact .of_blind (blind_get_bind (fun _ _ => rfl) fun _ => (blind_withHeap _).bind fun f =>
      (blind_define decl.name.lexeme (.function f)).bind fun _ => blind_pure _)
  | returnWith keyword value =>
    cases value with
    | none => exact .pure _
    | some e =>
      exact ((heval e m).within (.expression (by simp [Stmt.expressions]))).bind_blind
        fun _ => blind_pure _
  | classDecl decl => exact (truncates_declareClass heval decl).bind_blind fun _ => blind_pure _

theorem truncates_evaluate_execute (fuel : Nat) : TruncatesExprs fuel ∧ TruncatesStmts fuel := by
  induction fuel with
  | zero => exact ⟨fun _ _ => .of_blind blind_outOfFuel, fun _ _ => .of_blind blind_outOfFuel⟩
  | succ fuel ih =>
    exact ⟨truncates_evaluate_succ ih.1 ih.2, truncates_execute_succ ih.1 ih.2⟩

/-- A failing sink cuts off the end of a program, and no more. -/
theorem truncates_interpret (fuel : Nat) (ss : List Stmt) :
    Truncates (interpret fuel ss) m (Run.ComesToPrint ⟨fuel, .program ss, m⟩) := by
  induction ss generalizing m with
  | nil => exact .pure ()
  | cons s ss ih =>
    exact (((truncates_evaluate_execute fuel).2 s m).within .topLevel).bind fun _ _ h =>
      ih.within (.laterProgram h)

/-- A program that prints no more than `k` lines does the same with a sink that fails after `k` more
flushes. Any other program halts there, on the machine of the moment at which it prints the line
behind the first `k`. -/
theorem interpret_failing (fuel : Nat) (ss : List Stmt) (hm : m.sink.working = m.sink)
    (failure : Sink.Failure) (k : Nat) :
    ∃ lines, ((interpret fuel ss).after m).sink = m.sink.taking lines ∧
      (lines.length ≤ k → interpret fuel ss (m.failing failure (m.sink.flushes + k)) =
        onMachine (fun m' => m'.failing failure (m.sink.flushes + k)) (interpret fuel ss m)) ∧
      (k < lines.length → ∃ v m', Run.ComesToPrint ⟨fuel, .program ss, m⟩ v m' ∧
        m'.sink = m.sink.taking (lines.take k) ∧ lines[k]? = some (m'.heap.text v) ∧
        interpret fuel ss (m.failing failure (m.sink.flushes + k)) =
          .error (.output failure.fault)
            { m' with
              chain := m.chain
              depth := m.depth
              sink := { m.sink.failing failure (m.sink.flushes + k) with
                lines := m.sink.lines ++ (lines.take (k + failure.kept)).toArray
                flushes := m.sink.flushes + k } }) := by
  have htruncates := truncates_interpret (m := m) fuel ss
  obtain ⟨lines, hlines⟩ := htruncates.grows hm
  have hflushes : ((interpret fuel ss).after m).sink.flushes = m.sink.flushes + lines.length := by
    rw [hlines, Sink.flushes_taking]
  refine ⟨lines, hlines, fun hle => ?_, fun hlt => ?_⟩
  · exact htruncates.same hm failure _ (hflushes ▸ Nat.add_le_add_left hle _)
  · obtain ⟨v, m', hv, hcut⟩ := htruncates.cut hm failure _ (Nat.le_add_right _ k)
      (hflushes ▸ Nat.add_lt_add_left hlt _)
    obtain ⟨hsink, hline⟩ := hcut.sink_eq hlines
    obtain ⟨chain, depth, hhalt⟩ := hcut.exists_halt hlines
    refine ⟨v, m', hv, hsink, hline, ?_⟩
    -- However a program ends, it leaves the context in which it started.
    have hcontext := restores_interpret fuel ss (m.failing failure (m.sink.flushes + k))
    rw [after, hhalt] at hcontext
    obtain ⟨rfl, rfl, -, -⟩ := hcontext
    exact hhalt

end Lox
