import Lox.Proofs.Machine.DeedRuns

/-!
# What a history tells of a heap

A history is a list of deeds. Its chronicle says which classes there are and what each of them
declares and inherits from, of which class each instance is, and which value was last stored in a
property. All this holds of the heap that the deeds lead to.
-/

namespace Lox

/-- What is known of objects: the classes and the classes of the instances, by their places, and the
values last stored in properties. -/
structure Chronicle where
  classes : List Declaration := []
  instances : List ClassId := []
  written : Owner → String → Option Value := fun _ _ => none

namespace Chronicle

/-- What is known behind a deed. -/
def add (t : Chronicle) : Deed → Chronicle
  | .declared d => { t with classes := t.classes ++ [d] }
  | .made c => { t with instances := t.instances ++ [c] }
  | .wrote owner name v _ =>
    { t with written := fun o x => if o = owner ∧ x = name.lexeme then some v else t.written o x }
  | .read _ _ _ => t

/-- A class and those that it inherits from, nearest first. -/
inductive Line (t : Chronicle) : List ClassId → Prop
  | root {c : ClassId} {d : Declaration} (hd : t.classes[c]? = some d)
      (h : d.superclass = none) : Line t [c]
  | sub {c c' : ClassId} {d : Declaration} {line : List ClassId} (hd : t.classes[c]? = some d)
      (h : d.superclass = some c') (hline : Line t (c' :: line)) : Line t (c :: c' :: line)

/-- The method of a name that a class declares. Of several the last counts. -/
def method? (t : Chronicle) (name : String) (c : ClassId) : Option Closure :=
  t.classes[c]?.bind fun d => (d.method? name).map fun f => ⟨f, d.chain, f.isInitializer⟩

/-- What a class has of a name: the value last stored there, or else the static method that it
declares. Of several the last counts. -/
def static? (t : Chronicle) (name : String) (c : ClassId) : Option Value :=
  (t.written (.class_ c) name).or (t.classes[c]?.bind fun d => (d.static? name).map .function)

/-- What a chronicle says holds of a heap. -/
structure Told (t : Chronicle) (h : Heap) : Prop where
  classes : h.classes.size = t.classes.length
  instances : h.instances.size = t.instances.length
  cls : ∀ i c, t.instances[i]? = some c → (h.inst i).cls = c
  fields : ∀ i name, (h.inst i).fields.get? name = t.written (.instance_ i) name
  ancestors : ∀ c d, t.classes[c]? = some d →
    (h.cls c).ancestors = (d.superclass.map h.lineage).getD []
  methods : ∀ c d, t.classes[c]? = some d → (h.cls c).methods = methodTable d.chain d.decl.methods
  statics : ∀ c name, (h.cls c).fields.get? name = t.static? name c
  functions : ∀ d ∈ t.classes, h.HasFunctions d.chain d.first d.decl.statics

theorem told_initial (sink : Sink) (clock : Clock) : Told {} (Machine.initial sink clock).heap where
  classes := rfl
  instances := rfl
  cls := nofun
  fields _ _ := rfl
  ancestors := nofun
  methods := nofun
  statics _ _ := rfl
  functions := nofun

/-- The last method of a name is in the table of methods. -/
theorem get?_methodTable_eq (chain : Chain) (ds : List FunctionDecl) (name : String) :
    (methodTable chain ds).get? name =
      (ds.reverse.find? fun f => f.name.lexeme = name).map fun f => ⟨f, chain, f.isInitializer⟩ := by
  have hfold : ∀ table : Table Closure,
      (ds.foldl (fun t d => t.insert d.name.lexeme ⟨d, chain, d.isInitializer⟩) table).get? name =
        ((ds.reverse.find? fun f => f.name.lexeme = name).map
          fun f => ⟨f, chain, f.isInitializer⟩).or (table.get? name) := by
    induction ds with
    | nil => exact fun _ => rfl
    | cons d ds ih =>
      intro table
      rw [List.foldl_cons, ih, List.reverse_cons, List.find?_append, Table.get?_insert,
        Option.map_or, Option.or_assoc]
      by_cases hname : d.name.lexeme = name
      · simp [hname]
      · simp [hname, Ne.symm hname]
  rw [methodTable, hfold, Table.get?_empty, Option.or_none]

namespace Told

variable {t : Chronicle} {h : Heap} {d : Declaration}

/-! ## Steps -/

theorem newFunction (ht : t.Told h) (c : Closure) : t.Told (h.newFunction c).2 :=
  { ht with
    functions := fun d hd k f hf => by
      obtain ⟨hlt, heq⟩ := ht.functions d hd k f hf
      refine ⟨Nat.lt_of_lt_of_le hlt (h.within_newFunction c).functions, ?_⟩
      rw [Heap.function_newFunction, if_neg (Nat.ne_of_lt hlt), heq] }

theorem newInstance (ht : t.Told h) (c : ClassId) :
    (t.add (.made c)).Told (h.newInstance c).2 :=
  { ht with
    instances := by simp [Heap.newInstance, add, ht.instances]
    cls := fun i c' hc' => by
      have hc' : (t.instances ++ [c])[i]? = some c' := hc'
      rw [Heap.inst_newInstance, ht.instances]
      split
      · next hi =>
        rw [hi, List.getElem?_concat_length] at hc'
        exact Option.some.inj hc'
      · exact ht.cls i c' (by grind)
    fields := fun i name => by
      rw [Heap.inst_newInstance]
      split
      · next hi =>
        -- Nothing was stored yet in a field of the instance at the next place.
        have hfresh := ht.fields i name
        rw [Heap.inst_of_le (Nat.le_of_eq hi.symm)] at hfresh
        exact hfresh
      · exact ht.fields i name }

/-- No class that was there changes, and the new one has the lineage that is told. -/
theorem newClass (ht : t.Told h) (hh : h.Closed) {fields : Table Value}
    (hsuperclass : ∀ c ∈ d.superclass, c < h.classes.size)
    (hfields : ∀ name, fields.get? name = (d.static? name).map .function)
    (hstatics : h.HasFunctions d.chain d.first d.decl.statics) :
    (t.add (.declared d)).Told (h.newClass (d.object h fields)).2 := by
  obtain ⟨h', hh'⟩ : ∃ h', h' = (h.newClass (d.object h fields)).2 := ⟨_, rfl⟩
  have hold : ∀ c < h.classes.size, h'.cls c = h.cls c := fun c hc => by
    rw [hh', Heap.cls_newClass, if_neg (Nat.ne_of_lt hc)]
  have hnew : h'.cls h.classes.size = d.object h fields := by
    rw [hh', Heap.cls_newClass, if_pos rfl]
  have hlineage : ∀ superclass : Option ClassId, (∀ c ∈ superclass, c < h.classes.size) →
      (superclass.map h'.lineage).getD [] = (superclass.map h.lineage).getD [] := by
    intro superclass hlt
    cases superclass with
    | none => rfl
    | some c => simp only [Option.map_some, Heap.lineage, hold c (hlt c rfl)]
  have hcases : ∀ c d', (t.add (.declared d)).classes[c]? = some d' →
      (c < h.classes.size ∧ t.classes[c]? = some d') ∨ (c = h.classes.size ∧ d' = d) := by
    intro c d' hd'
    have hd' : (t.classes ++ [d])[c]? = some d' := hd'
    rw [ht.classes]
    grind
  rw [← hh']
  exact
    { classes := by simp [hh', Heap.newClass, add, ht.classes]
      instances := hh' ▸ ht.instances
      cls := hh' ▸ ht.cls
      fields := hh' ▸ ht.fields
      ancestors := fun c d' hd' => by
        rcases hcases c d' hd' with ⟨hc, hd'⟩ | ⟨rfl, rfl⟩
        · have hancestors := ht.ancestors c d' hd'
          rw [hold c hc, hlineage d'.superclass fun c' hc' => ?_, hancestors]
          rw [Option.mem_def.1 hc'] at hancestors
          exact Nat.lt_trans (hh.ancestors c hc c' (hancestors ▸ List.mem_cons_self)) hc
        · rw [hnew, hlineage _ hsuperclass]
          rfl
      methods := fun c d' hd' => by
        rcases hcases c d' hd' with ⟨hc, hd'⟩ | ⟨rfl, rfl⟩
        · rw [hold c hc, ht.methods c d' hd']
        · rw [hnew]
          rfl
      statics := fun c name => by
        have hbefore := ht.statics c name
        rw [static?] at hbefore ⊢
        have hclasses : (t.add (.declared d)).classes = t.classes ++ [d] := rfl
        rw [hclasses, hh', Heap.cls_newClass, ht.classes]
        split
        · next hc =>
          -- Nothing was stored yet in a field of the class at the next place.
          rw [Heap.cls_of_le (by rw [hc, ht.classes]), hc, List.getElem?_length, Option.bind_none,
            Option.or_none] at hbefore
          rw [hc, List.getElem?_concat_length]
          exact (hfields name).trans (by rw [add, ← hbefore]; rfl)
        · have hsame : (t.classes ++ [d])[c]? = t.classes[c]? := by grind
          rw [hsame]
          exact hbefore
      functions := hh' ▸ List.forall_mem_append.2
        ⟨ht.functions, List.forall_mem_singleton.2 hstatics⟩ }

/-- The field that is written has the value that was told last, and all others stay. -/
theorem setField (ht : t.Told h) {i : InstanceId} (hi : i < h.instances.size) (name : Token)
    (v : Value) (m : Machine) :
    (t.add (.wrote (.instance_ i) name v m)).Told (h.setField i name.lexeme v) :=
  { ht with
    instances := by simp [Heap.setField, add, ht.instances]
    cls := fun j c hc => by
      rw [Heap.cls_setField]
      exact ht.cls j c hc
    fields := fun j x => by
      rw [Heap.inst_setField]
      simp only [add, Owner.instance_.injEq, hi, and_true]
      split
      · next hj =>
        rw [Table.get?_insert]
        simp only [hj, true_and]
        split
        · rfl
        · exact ht.fields i x
      · next hj =>
        simp only [hj, false_and, if_false]
        exact ht.fields j x
    statics := fun c x => by
      simp only [static?, add, reduceCtorEq, false_and, if_false]
      exact ht.statics c x }

theorem setClassField (ht : t.Told h) {c : ClassId} (hc : c < h.classes.size) (name : Token)
    (v : Value) (m : Machine) :
    (t.add (.wrote (.class_ c) name v m)).Told (h.setClassField c name.lexeme v) := by
  have hlineage : (h.setClassField c name.lexeme v).lineage = h.lineage := by
    funext d
    rw [Heap.lineage, Heap.lineage, Heap.ancestors_setClassField]
  exact
    { ht with
      classes := by simp [Heap.setClassField, add, ht.classes]
      fields := fun i x => by
        simp only [add, reduceCtorEq, false_and, if_false]
        exact ht.fields i x
      ancestors := fun c' d hd => by
        rw [hlineage, Heap.ancestors_setClassField]
        exact ht.ancestors c' d hd
      methods := fun c' d hd => by
        rw [Heap.methods_setClassField]
        exact ht.methods c' d hd
      statics := fun c' x => by
        have hbefore := ht.statics c' x
        rw [Heap.cls_setClassField]
        simp only [static?, add, Owner.class_.injEq, hc, and_true] at hbefore ⊢
        split
        · next hc' =>
          rw [Table.get?_insert]
          simp only [hc', true_and]
          split
          · rfl
          · exact hc' ▸ hbefore
        · next hc' =>
          simp only [hc', false_and, if_false]
          exact hbefore }

/-! ## Classes -/

/-- The classes that are looked in for a member are those of the line of the class. -/
theorem lineage_eq (ht : t.Told h) {c : ClassId} {line : List ClassId}
    (hline : t.Line (c :: line)) : h.lineage c = c :: line := by
  generalize hl : c :: line = l at hline
  induction hline generalizing c line with
  | root hd hsuperclass =>
    cases hl
    rw [Heap.lineage, ht.ancestors _ _ hd, hsuperclass]
    rfl
  | sub hd hsuperclass _ ih =>
    cases hl
    rw [Heap.lineage, ht.ancestors _ _ hd, hsuperclass, Option.map_some, Option.getD_some, ih rfl]

/-- Each class has a line: a class is made after those that it inherits from. -/
theorem line (ht : t.Told h) (hh : h.Closed) {c : ClassId} (hc : c < h.classes.size) :
    t.Line (h.lineage c) := by
  induction c using Nat.strong_induction_on with
  | _ c ih =>
    obtain ⟨d, hd⟩ : ∃ d, t.classes[c]? = some d :=
      ⟨_, List.getElem?_eq_getElem (ht.classes ▸ hc)⟩
    have hancestors := ht.ancestors c d hd
    rw [Heap.lineage, hancestors]
    cases hsuperclass : d.superclass with
    | none => exact .root hd hsuperclass
    | some c' =>
      rw [hsuperclass] at hancestors
      have hlt : c' < c := hh.ancestors c hc c' (hancestors ▸ List.mem_cons_self)
      exact .sub hd hsuperclass (ih c' hlt (Nat.lt_trans hlt hc))

theorem method?_eq (ht : t.Told h) (name : String) (c : ClassId) :
    (h.cls c).methods.get? name = t.method? name c := by
  rw [Chronicle.method?]
  cases hd : t.classes[c]? with
  | none =>
    have hle : h.classes.size ≤ c := by
      rw [ht.classes]
      exact List.getElem?_eq_none_iff.1 hd
    rw [Heap.cls_of_le hle]
    rfl
  | some d =>
    rw [ht.methods c d hd, get?_methodTable_eq]
    rfl

end Told

end Chronicle

def chronicle (history : List Deed) : Chronicle := history.foldl Chronicle.add {}

open Chronicle

variable {history ds : List Deed} {h h' : Heap} {S S' : Seen}

theorem chronicle_concat (history : List Deed) (deed : Deed) :
    chronicle (history ++ [deed]) = (chronicle history).add deed :=
  List.foldl_concat ..

/-- The deeds of a step tell what it does to the heap. -/
theorem Heap.Step.told (hs : h.Step S ds h' S') (hh : h.Closed) (ht : (chronicle history).Told h) :
    (chronicle (history ++ ds)).Told h' := by
  cases hs with
  | frames | frame =>
    rw [List.append_nil]
    exact { ht with }
  | function =>
    rw [List.append_nil]
    exact ht.newFunction _
  | declared hsuperclass _ _ hfields hstatics =>
    rw [chronicle_concat]
    exact ht.newClass hh hsuperclass hfields hstatics
  | made =>
    rw [chronicle_concat]
    exact ht.newInstance _
  | @wrote owner _ _ _ _ howner =>
    rw [chronicle_concat]
    cases owner with
    | instance_ i => exact ht.setField howner _ _ _
    | class_ c => exact ht.setClassField howner _ _ _
  | read =>
    rw [chronicle_concat]
    exact ht

/-- What a history says holds of the heap that it leads to. -/
theorem Heap.Steps.told (hs : h.Steps S ds h' S') (hh : h.Planted S)
    (ht : (chronicle history).Told h) :
    (chronicle (history ++ ds)).Told h' := by
  induction hs with
  | refl =>
    rw [List.append_nil]
    exact ht
  | step hsteps hstep ih =>
    rw [← List.append_assoc]
    exact hstep.told (hsteps.planted hh).closed ih

end Lox
