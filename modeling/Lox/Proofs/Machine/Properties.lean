import Lox.Proofs.Machine.Chronicle

/-!
# Properties of instances and classes

Reading a property of an instance gives the value last stored there, or else the method of the first
class of its line that declares one, bound to the instance. Reading a property of a class gives what
the first class of its line has that has something of the name: the value last stored there, or else
a static method. This holds at each moment of any programs that are run one after another. Storing a
value changes what is read of this name on this owner and, if it is a class, on those that inherit
from it, and nothing else.
-/

namespace Lox

open Exec

variable {c : ClassId} {m : Machine} {x : String}

/-! ## What a name finds -/

/-- What a name finds on an owner. -/
def Heap.property? (h : Heap) (name : String) : Owner → Option Member
  | .instance_ i => h.member? (h.inst i).cls i name
  | .class_ c => (h.classField? c name).map .field

/-- A machine on which a method was bound: one more frame holds the receiver, and one more function
sees it. -/
def Machine.bind (m : Machine) (method : Closure) (receiver : Value) : Machine :=
  { m with heap := { m.heap with
      frames := m.heap.frames.push ((∅ : Frame).insert "this" receiver)
      functions := m.heap.functions.push
        { method with chain := m.heap.frames.next :: method.chain } } }

/-- What reading a property does with what the name finds. -/
def Machine.answer (m : Machine) (owner : Owner) (name : Token) :
    Option Member → EStateM.Result Halt Machine Value
  | some (.field v) => .ok v m
  | some (.method k) => .ok (.function m.heap.functions.size) (m.bind k owner.value)
  | none => .error (.fault name.line (.undefinedProperty name.lexeme)) m

theorem getProperty_eq (owner : Owner) (name : Token) (m : Machine) :
    getProperty owner.value name m = m.answer owner name (m.heap.property? name.lexeme owner) := by
  cases owner with
  | instance_ i =>
    simp only [Owner.value, getProperty, get_bind_apply, getMember, Heap.property?]
    cases m.heap.member? (m.heap.inst i).cls i name.lexeme with
    | none => rfl
    | some member => cases member <;> rfl
  | class_ c =>
    simp only [Owner.value, getProperty, get_bind_apply, Heap.property?]
    cases m.heap.classField? c name.lexeme <;> rfl

namespace Chronicle

/-- The class that the line of an owner starts with. -/
def class? (t : Chronicle) : Owner → Option ClassId
  | .instance_ i => t.instances[i]?
  | .class_ c => some c

/-- What a name finds on an owner if the given classes are looked in: on an instance the value last
stored in its field, or else the method of the first class that declares one; on a class what the
first class has that has something. -/
def property? (t : Chronicle) (line : List ClassId) (name : String) : Owner → Option Member
  | .instance_ i => ((t.written (.instance_ i) name).map .field).or
      ((line.findSome? (t.method? name)).map .method)
  | .class_ _ => (line.findSome? (t.static? name)).map .field

/-- Reading properties gives what is known of them. Each owner has a line of classes, and the
functions of static methods are there. -/
structure Governs (t : Chronicle) (m : Machine) : Prop where
  lines : ∀ owner, m.heap.Has owner.value → ∃ c line, t.class? owner = some c ∧ t.Line (c :: line)
  reads : ∀ owner c line name, t.class? owner = some c → t.Line (c :: line) →
    getProperty owner.value name m =
      m.answer owner name (t.property? (c :: line) name.lexeme owner)
  statics : ∀ d ∈ t.classes, m.heap.HasFunctions d.chain d.first d.decl.statics

variable {t : Chronicle} {h : Heap}

theorem Line.lt {line : List ClassId} (hline : t.Line (c :: line)) : c < t.classes.length := by
  cases hline with
  | root hd _ | sub hd _ _ => exact (List.getElem?_eq_some_iff.1 hd).1

theorem Told.property?_eq (ht : t.Told h) {owner : Owner} {line : List ClassId}
    (hc : t.class? owner = some c) (hline : t.Line (c :: line)) (name : String) :
    h.property? name owner = t.property? (c :: line) name owner := by
  have hmethods : (fun d => (h.cls d).methods.get? name) = t.method? name :=
    funext (ht.method?_eq name)
  have hstatics : (fun d => (h.cls d).fields.get? name) = t.static? name :=
    funext fun d => ht.statics d name
  cases owner with
  | instance_ i =>
    rw [Heap.property?, ht.cls i c hc, Heap.member?, ht.fields, Heap.findMethod?,
      ht.lineage_eq hline, hmethods, Chronicle.property?]
    cases t.written (.instance_ i) name <;> rfl
  | class_ c' =>
    cases hc
    rw [Heap.property?, Heap.classField?, ht.lineage_eq hline, hstatics, Chronicle.property?]

theorem Told.exists_line (ht : t.Told h) (hh : h.Closed) {owner : Owner}
    (howner : h.Has owner.value) : ∃ c line, t.class? owner = some c ∧ t.Line (c :: line) := by
  cases owner with
  | instance_ i =>
    have hi : i < h.instances.size := howner
    have hc : t.instances[i]? = some (h.inst i).cls := by
      rw [ht.instances] at hi
      rw [List.getElem?_eq_getElem hi, ht.cls i _ (List.getElem?_eq_getElem hi)]
    exact ⟨_, _, hc, ht.line hh (hh.classes i howner)⟩
  | class_ c => exact ⟨c, _, rfl, ht.line hh howner⟩

theorem Told.governs (ht : t.Told m.heap) (hm : m.heap.Closed) : t.Governs m where
  lines _ howner := ht.exists_line hm howner
  reads owner c line name hc hline := by rw [getProperty_eq, ht.property?_eq hc hline]
  statics := ht.functions

end Chronicle

/-! ## What storing a value leaves as it is -/

namespace Heap

variable {h : Heap} {owner : Owner} {name : String} {v : Value}

theorem lineage_write (c : ClassId) : (h.write name v owner).lineage c = h.lineage c := by
  cases owner with
  | instance_ i => rfl
  | class_ d => simp only [lineage, write, h.ancestors_setClassField]

theorem methods_write (c : ClassId) :
    ((h.write name v owner).cls c).methods = (h.cls c).methods := by
  cases owner with
  | instance_ i => rfl
  | class_ d => exact h.methods_setClassField d c name v

theorem cls_inst_write (i : InstanceId) :
    ((h.write name v owner).inst i).cls = (h.inst i).cls := by
  cases owner with
  | instance_ j => exact h.cls_setField j i name v
  | class_ d => rfl

/-- The fields of an instance change only if it is the owner, and only at the name. -/
theorem get?_inst_write {i : InstanceId} (hne : owner ≠ .instance_ i ∨ x ≠ name) :
    ((h.write name v owner).inst i).fields.get? x = (h.inst i).fields.get? x := by
  cases owner with
  | instance_ j =>
    rw [write, inst_setField]
    split
    · next hj =>
      have hx : x ≠ name := hne.resolve_left fun h => h (by rw [hj.1])
      rw [Table.get?_insert_of_ne _ _ hx]
    · rfl
  | class_ d => rfl

/-- The fields of a class change only if it is the owner, and only at the name. -/
theorem get?_cls_write (hne : owner ≠ .class_ c ∨ x ≠ name) :
    ((h.write name v owner).cls c).fields.get? x = (h.cls c).fields.get? x := by
  cases owner with
  | instance_ j => rfl
  | class_ d =>
    rw [write, cls_setClassField]
    split
    · next hc =>
      have hx : x ≠ name := hne.resolve_left fun h => h (by rw [hc.1])
      rw [Table.get?_insert_of_ne _ _ hx]
    · rfl

theorem property?_instance_write {i : InstanceId} (hne : owner ≠ .instance_ i ∨ x ≠ name) :
    (h.write name v owner).property? x (.instance_ i) = h.property? x (.instance_ i) := by
  simp only [property?, member?, get?_inst_write hne, cls_inst_write, findMethod?, lineage_write,
    methods_write]

theorem property?_class_write (hne : (∀ d ∈ h.lineage c, owner ≠ .class_ d) ∨ x ≠ name) :
    (h.write name v owner).property? x (.class_ c) = h.property? x (.class_ c) := by
  have hsame : ∀ d ∈ h.lineage c,
      ((h.write name v owner).cls d).fields.get? x = (h.cls d).fields.get? x :=
    fun d hd => get?_cls_write (hne.imp (fun h => h d hd) id)
  simp only [property?, classField?, lineage_write, ← List.head?_filterMap]
  rw [List.filterMap_congr hsame]

end Heap

/-- A machine on which a value was stored in a property. -/
def Machine.write (m : Machine) (name : String) (v : Value) (owner : Owner) : Machine :=
  { m with heap := m.heap.write name v owner }

theorem setProperty_eq (owner : Owner) (name : Token) (v : Value) (m : Machine) :
    setProperty owner.value name (pure v) m = .ok v (m.write name.lexeme v owner) := by
  cases owner <;> rfl

/-- Reading a property gives the same on two machines: the same value or fault, and the same frames
and functions afterwards. -/
def ReadsAlike (m m' : Machine) (owner : Owner) (name : Token) : Prop :=
  match getProperty owner.value name m, getProperty owner.value name m' with
  | .ok v n, .ok v' n' =>
    v = v' ∧ n.heap.frames = n'.heap.frames ∧ n.heap.functions = n'.heap.functions
  | .error halt _, .error halt' _ => halt = halt'
  | _, _ => False

theorem readsAlike_write {owner other : Owner} {name : String} {x : Token} {v : Value}
    (h : (m.heap.write name v owner).property? x.lexeme other = m.heap.property? x.lexeme other) :
    ReadsAlike m (m.write name v owner) other x := by
  have hframes : (m.heap.write name v owner).frames = m.heap.frames := by cases owner <;> rfl
  have hfunctions : (m.heap.write name v owner).functions = m.heap.functions := by
    cases owner <;> rfl
  rw [ReadsAlike, getProperty_eq, getProperty_eq, Machine.write]
  simp only [h]
  cases m.heap.property? x.lexeme other with
  | none => rfl
  | some member =>
    cases member with
    | field v => exact ⟨rfl, hframes.symm, hfunctions.symm⟩
    | method k => simp [Machine.answer, Machine.bind, hframes, hfunctions]

/-- What storing a value leaves as it is: what is read of other names, on other instances, on
classes that do not inherit from the owner, and on those that the owner inherits from. -/
structure Chronicle.Spares (t : Chronicle) (owner : Owner) (name : Token) (m m' : Machine) :
    Prop where
  names : ∀ other x, x.lexeme ≠ name.lexeme → ReadsAlike m m' other x
  instances : ∀ i x, owner ≠ .instance_ i → ReadsAlike m m' (.instance_ i) x
  classes : ∀ c line x, t.Line (c :: line) → (∀ d ∈ c :: line, owner ≠ .class_ d) →
    ReadsAlike m m' (.class_ c) x
  ancestors : ∀ c line x, owner = .class_ c → t.Line (c :: line) →
    ∀ d ∈ line, ReadsAlike m m' (.class_ d) x

theorem Chronicle.Told.spares {t : Chronicle} (ht : t.Told m.heap) (hm : m.heap.Closed)
    (owner : Owner) (name : Token) (v : Value) :
    t.Spares owner name m (m.write name.lexeme v owner) where
  names other x hx := readsAlike_write <| by
    cases other with
    | instance_ i => exact Heap.property?_instance_write (.inr hx)
    | class_ c => exact Heap.property?_class_write (.inr hx)
  instances i x hi := readsAlike_write (Heap.property?_instance_write (.inl hi))
  classes c line x hline hne := readsAlike_write <|
    Heap.property?_class_write (.inl (ht.lineage_eq hline ▸ hne))
  ancestors c line x howner hline d hd := readsAlike_write <| Heap.property?_class_write <| .inl <| by
    have hc : c < m.heap.classes.size := ht.classes ▸ hline.lt
    have hdc : d < c := hm.ancestors c hc d (List.cons.inj (ht.lineage_eq hline) |>.2 ▸ hd)
    -- All classes of the line of `d` were made before `c`.
    rintro e he heq
    rw [howner] at heq
    cases heq
    rcases List.mem_cons.1 he with rfl | he
    · exact Nat.lt_irrefl _ hdc
    · exact Nat.lt_asymm hdc (hm.ancestors d (Nat.lt_trans hdc hc) _ he)

/-! ## Reads and writes of programs -/

/-- At each moment at which a program reads or writes a property, after whatever programs were run
and however they ended, reading any property of any instance or class gives what the history so far
says. A value that is stored is what is read afterwards, and storing it spares other properties. -/
theorem property_reads_follow_history (sink : Sink) (clock : Clock) {jobs : List Job}
    {before later : List Deed} {deed : Deed} {m : Machine}
    (hdeeds : (Machine.initial sink clock).deedsOf jobs = before ++ deed :: later)
    (hm : deed.machine? = some m) :
    (chronicle before).Governs m ∧
      (∀ owner name, deed = .read owner name m → m.heap.Has owner.value) ∧
      ∀ owner name v, deed = .wrote owner name v m → m.heap.Has owner.value ∧
        setProperty owner.value name (pure v) m = .ok v (m.write name.lexeme v owner) ∧
        (chronicle (before ++ [deed])).Governs (m.write name.lexeme v owner) ∧
        (chronicle before).Spares owner name m (m.write name.lexeme v owner) := by
  have hinitial := (Machine.closed_initial sink clock).planted
  obtain ⟨S, hhistory, -⟩ := hinitial.history jobs
  obtain ⟨h₁, S₁, h₂, S₂, hbefore, hstep⟩ := hhistory.split hdeeds
  have hplanted := hbefore.planted hinitial.heap
  have hclosed := hplanted.closed
  have hstart : (chronicle []).Told (Machine.initial sink clock).heap :=
    Chronicle.told_initial sink clock
  have htold : (chronicle before).Told h₁ := hbefore.told hinitial.heap hstart
  have hafter := hstep.told hclosed htold
  cases hstep with
  | declared | made => cases hm
  | @wrote owner name v _ hheap howner hv =>
    cases hm
    subst hheap
    have hclosed' : (m.write name.lexeme v owner).heap.Closed :=
      Heap.Step.closed (.wrote rfl howner hv) hplanted
    refine ⟨htold.governs hclosed, nofun, ?_⟩
    rintro _ _ _ ⟨⟩
    exact ⟨howner, setProperty_eq owner name v m, hafter.governs hclosed',
      htold.spares hclosed owner name v⟩
  | read hheap howner =>
    cases hm
    subst hheap
    refine ⟨htold.governs hclosed, ?_, nofun⟩
    rintro _ _ ⟨⟩
    exact howner

/-- A class whose method is declared twice and shadows one that it inherits, with a field that shadows
a method and a value that shadows a static method. -/
theorem property_reads_follow_history_shadowed :
    let name (text : String) : Token := ⟨.symbol .identifier, text, 1⟩
    let declared (text : String) (params : List Token) : FunctionDecl := ⟨name text, params, []⟩
    let x := name "x"
    let a : ClassDecl := ⟨name "A", none, [declared "m" [x], declared "n" []],
      [declared "s" [x], declared "s" [], declared "t" []]⟩
    let b : ClassDecl := ⟨name "B", some (.var 0 (name "A")),
      [declared "m" [x, x], declared "m" []], []⟩
    let program : List Stmt := [.classDecl a, .classDecl b,
      .varDecl (name "b") (some (.call (.var 1 (name "B")) x [])),
      .expression (.set (.var 2 (name "b")) (name "n") (.literal (.bool true))),
      .expression (.set (.var 3 (name "B")) (name "s") (.literal .nil)),
      .expression (.get (.var 4 (name "b")) (name "m"))]
    ∃ before m, (Machine.initial {} {}).deedsOf [⟨4, ∅, program⟩] =
        before ++ [.read (.instance_ 0) (name "m") m] ∧
      getProperty (.instance_ 0) (name "m") m =
        .ok (.function 3) (m.bind ⟨declared "m" [], [1, 0], false⟩ (.instance_ 0)) ∧
      getProperty (.instance_ 0) (name "n") m = .ok (.bool true) m ∧
      getProperty (.instance_ 0) (name "s") m = .error (.fault 1 (.undefinedProperty "s")) m ∧
      getProperty (.class_ 1) (name "s") m = .ok .nil m ∧
      getProperty (.class_ 0) (name "s") m = .ok (.function 1) m ∧
      getProperty (.class_ 1) (name "t") m = .ok (.function 2) m ∧
      getProperty (.class_ 1) (name "n") m = .error (.fault 1 (.undefinedProperty "n")) m := by
  intro name declared x a b program
  let machine (globals : List (String × Value)) (frames : List Frame) (classes : List ClassObject)
      (instances : List Instance) : Machine :=
    { Machine.initial {} {} with
      heap :=
        { frames := ⟨(⟨Machine.initialGlobals.entries ++ globals⟩ :: frames).toArray⟩
          functions := #[⟨declared "s" [x], [0], false⟩, ⟨declared "s" [], [0], false⟩,
            ⟨declared "t" [], [0], false⟩]
          classes := classes.toArray
          instances := instances.toArray } }
  let clsA : ClassObject :=
    ⟨"A", [], methodTable [0] a.methods, ⟨[("s", .function 1), ("t", .function 2)]⟩⟩
  let clsB : ClassObject := ⟨"B", [0], methodTable [1, 0] b.methods, ∅⟩
  let super : Frame := ⟨[("super", .class_ 0)]⟩
  let n₁ := machine [("A", .class_ 0)] [] [clsA] []
  let n₂ := machine [("A", .class_ 0), ("B", .class_ 1)] [super] [clsA, clsB] []
  let m₁ := machine [("A", .class_ 0), ("B", .class_ 1), ("b", .instance_ 0)] [super] [clsA, clsB]
    [⟨1, ∅⟩]
  let m₂ := m₁.write "n" (.bool true) (.instance_ 0)
  let m₃ := m₂.write "s" .nil (.class_ 1)
  have hA : execute 4 (.classDecl a) (Machine.initial {} {}) = .ok .normal n₁ := rfl
  have hB : execute 4 (.classDecl b) n₁ = .ok .normal n₂ := rfl
  have hmade : execute 4 (.varDecl (name "b") (some (.call (.var 1 (name "B")) x []))) n₂ =
      .ok .normal m₁ := rfl
  have hfield : execute 4
      (.expression (.set (.var 2 (name "b")) (name "n") (.literal (.bool true)))) m₁ =
        .ok .normal m₂ := rfl
  have hstatic : execute 4 (.expression (.set (.var 3 (name "B")) (name "s") (.literal .nil))) m₂ =
      .ok .normal m₃ := rfl
  let before : List Deed := [.declared ⟨a, none, [0], 0⟩, .declared ⟨b, some 0, [1, 0], 3⟩, .made 1,
    .wrote (.instance_ 0) (name "n") (.bool true) m₁, .wrote (.class_ 1) (name "s") .nil m₂]
  have hdeeds : (Machine.initial {} {}).deedsOf [⟨4, ∅, program⟩] =
      before ++ [.read (.instance_ 0) (name "m") m₃] := by
    change interpretTrace .objects 4 program (Machine.initial {} {}) ++ [] = _
    rw [interpretTrace, Trace.andThen_of_ok _ _ hA, interpretTrace, Trace.andThen_of_ok _ _ hB,
      interpretTrace, Trace.andThen_of_ok _ _ hmade, interpretTrace,
      Trace.andThen_of_ok _ _ hfield, interpretTrace, Trace.andThen_of_ok _ _ hstatic]
    rfl
  obtain ⟨-, hreads, -⟩ := (property_reads_follow_history {} {} hdeeds rfl).1
  have hrootLine : (chronicle before).Line [0] := .root rfl rfl
  have hline : (chronicle before).Line [1, 0] := .sub rfl rfl hrootLine
  exact ⟨before, m₃, hdeeds, hreads (.instance_ 0) 1 [0] (name "m") rfl hline,
    hreads (.instance_ 0) 1 [0] (name "n") rfl hline,
    hreads (.instance_ 0) 1 [0] (name "s") rfl hline, hreads (.class_ 1) 1 [0] (name "s") rfl hline,
    hreads (.class_ 0) 0 [] (name "s") rfl hrootLine, hreads (.class_ 1) 1 [0] (name "t") rfl hline,
    hreads (.class_ 1) 1 [0] (name "n") rfl hline⟩

end Lox
