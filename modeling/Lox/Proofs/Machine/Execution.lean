import Lox.Proofs.Machine.Agreement

/-!
# Running programs that are alike

Evaluating and executing alike programs on alike machines does the same, by induction on the fuel.
The flags around an expression or a statement are the marks of the frames that it sees: a new frame
is marked as its scope is flagged, and the frame of a receiver or of a superclass is not marked.
-/

namespace Lox

open Exec

variable {r : Likeness} {marks : Marks} {m m' : Machine} {flags : List Bool}

/-! ## Variables -/

/-- A name that is looked for in a frame at a distance. -/
theorem Heap.Alike.getAt_eq {h h' : Heap} {chain : Chain} (hh : h.Alike r marks h')
    (hfit : marks.Fit chain flags) {d : Nat} {x : String}
    (hx : flags.getD d false = true → x ≠ r.new) :
    (∃ v, h.frames.getAt chain d x = .ok v ∧
        h'.frames.getAt chain d (r.name (flags.getD d false) x) = .ok v) ∨
      ∃ fault, h.frames.getAt chain d x = .error fault ∧ fault.isMisbinding = true := by
  cases hchain : chain[d]? with
  | none =>
    refine .inr ⟨.unresolvableDepth x, ?_, rfl⟩
    rw [Frames.getAt, Frames.frameAt_of_getElem?_eq_none hchain]
    rfl
  | some i =>
    have hmark := hfit d i hchain
    have hframe := hh.frames i x (hmark ▸ hx)
    rw [hmark] at hframe
    simp only [Frames.getAt, Frames.frameAt_of_getElem? hchain, Bind.bind, Except.bind, hframe]
    cases (h.frames.frame i).get? x with
    | some v => exact .inl ⟨v, rfl, rfl⟩
    | none => exact .inr ⟨.undefinedAtDistance x, rfl, rfl⟩

/-- A global name. -/
theorem Heap.Alike.get_global {h h' : Heap} (hh : h.Alike r marks h') (x : String) :
    h'.frames.get x globalChain = h.frames.get x globalChain := by
  have hframe := hh.frames globalFrame x (by simp [hh.globals])
  rw [hh.globals, NameChange.name_false] at hframe
  simp only [globalChain, Frames.get, hframe]

theorem Heap.Alike.holder_global {h h' : Heap} (hh : h.Alike r marks h') (x : String) :
    h'.frames.holder x globalChain = h.frames.holder x globalChain := by
  have hframe := hh.frames globalFrame x (by simp [hh.globals])
  rw [hh.globals, NameChange.name_false] at hframe
  have hcontains : (h'.frames.frame globalFrame).contains x =
      (h.frames.frame globalFrame).contains x := by rw [Table.contains, Table.contains, hframe]
  simp only [globalChain, Frames.holder, hcontains]

namespace Agrees

/-- Nodes that correspond to each other refer to the same variable. -/
theorem lookUp {id id' : NodeId} {d : Option Nat} {name name' : Token} (h : m.Alike r marks m')
    (hfit : marks.Fit m.chain flags) (hid : r.same id id' d)
    (hname : r.Avoids (flagAt flags d) name)
    (hname' : (r.token (flagAt flags d) name).Alike r name') :
    Agrees r marks m m' (lookUp id name) (lookUp id' name') Equal := by
  refine get_bind ?_
  obtain ⟨hd, hd'⟩ := h.locals id id' d hid
  rw [hd, hd']
  cases d with
  | none =>
    rw [flagAt, r.token_false] at hname'
    simp only [hname'.lexeme, h.heap.get_global]
    exact ofExcept _ h hname'.line
  | some d =>
    refine ofExcept_found h ?_
    rw [h.chain, hname'.lexeme, r.lexeme_token]
    exact h.heap.getAt_eq hfit hname

/-- Nodes that correspond to each other overwrite the same variable. -/
theorem overwrite {id id' : NodeId} {d : Option Nat} {name name' : Token} {v : Value}
    (h : m.Alike r marks m') (hfit : marks.Fit m.chain flags) (hid : r.same id id' d)
    (hname : r.Avoids (flagAt flags d) name)
    (hname' : (r.token (flagAt flags d) name).Alike r name') :
    Agrees r marks m m' (overwrite id name v) (overwrite id' name' v) Equal := by
  refine get_bind ?_
  obtain ⟨hd, hd'⟩ := h.locals id id' d hid
  rw [hd, hd']
  cases d with
  | none =>
    rw [flagAt, r.token_false] at hname'
    refine get_bind ?_
    rw [hname'.lexeme, h.heap.holder_global]
    simp only [globalChain, Frames.holder]
    split
    · exact defineIn h h.nonempty (by simp [h.heap.globals]) (by simp [h.heap.globals])
    · exact fail h hname'.line
  | some d =>
    refine get_bind ?_
    rw [h.chain, hname'.lexeme, r.lexeme_token]
    cases hchain : m.chain[d]? with
    | none =>
      rw [Frames.frameAt_of_getElem?_eq_none hchain]
      exact .misbound rfl rfl
    | some i =>
      rw [Frames.frameAt_of_getElem? hchain, Frames.frameAt_of_getElem? hchain]
      have hmark : marks i = flagAt flags (some d) := hfit d i hchain
      exact defineIn h (h.bounded i (List.mem_of_getElem? hchain)) (hmark ▸ hname) (hmark ▸ rfl)

end Agrees

/-! ## Members -/

/-- The frame of a receiver or of a superclass. -/
theorem Frame.Alike.singleton (r : Likeness) (x : String) (v : Value) :
    Frame.Alike r false ((∅ : Frame).insert x v) ((∅ : Frame).insert x v) := fun y _ => by
  rw [NameChange.name_false]

/-- A method gets a frame for its receiver. -/
theorem Heap.Alike.bindReceiver {h h' : Heap} (hh : h.Alike r marks h')
    (hsize : 0 < h.frames.size) {c c' : Closure} (hc : c.Alike r marks h.frames.size [false] c')
    (receiver : Value) :
    (h.bindReceiver c receiver).2.Alike r (marks.add h.frames.size false)
        (h'.bindReceiver c' receiver).2 ∧
      (h.bindReceiver c receiver).1.Alike r (marks.add h.frames.size false)
        (h.bindReceiver c receiver).2.frames.size [] (h'.bindReceiver c' receiver).1 := by
  refine ⟨hh.newFrame hsize (.singleton r "this" receiver), ?_⟩
  obtain ⟨flags, hfit, hdecl⟩ := hc.decl
  have hnext : marks.add h.frames.size false h.frames.next = false := if_pos rfl
  refine ⟨?_, ?_, hc.isInitializer, false :: flags,
    (hfit.extend hc.bounded (marks.extends_add _ _)).cons hnext, hdecl⟩
  · rw [Heap.bindReceiver, Heap.bindReceiver, Heap.newFrame, Heap.newFrame, hc.chain]
    exact congrArg (· :: c.chain) hh.frames_size
  · intro i hi
    simp only [Heap.bindReceiver, Heap.newFrame, List.mem_cons] at hi ⊢
    rw [Frames.size_push]
    rcases hi with rfl | hi
    · exact Nat.lt_succ_self _
    · exact Nat.lt_succ_of_lt (hc.bounded i hi)

theorem Heap.cls_setClassField (h : Heap) (c i : ClassId) (name : String) (v : Value) :
    (h.setClassField c name v).cls i =
      if i = c ∧ c < h.classes.size then
        { h.cls i with fields := (h.cls i).fields.insert name v }
      else h.cls i := by
  simp only [Heap.cls, Heap.setClassField, Array.getD_eq_getD_getElem?, Array.getElem?_modify]
  by_cases hi : c = i
  · subst hi
    by_cases hc : c < h.classes.size
    · simp [hc]
    · simp [hc]
  · rw [if_neg hi, if_neg fun h => hi h.1.symm]

/-- A field of a class is set. -/
theorem Heap.Alike.setClassField {h h' : Heap} (hh : h.Alike r marks h') (c : ClassId)
    (name : String) (v : Value) :
    (h.setClassField c name v).Alike r marks (h'.setClassField c name v) := by
  refine ⟨hh.frames_size, hh.frames, hh.globals, hh.functions_size, hh.functions, ?_, fun i => ?_,
    hh.instances⟩
  · simp only [Heap.setClassField, Array.size_modify, hh.classes_size]
  · have hi := hh.classes i
    rw [Heap.cls_setClassField, Heap.cls_setClassField, hh.classes_size]
    split
    · exact ⟨hi.name, hi.ancestors, by simp only [hi.fields], hi.methods⟩
    · exact hi

namespace Agrees

theorem readMember {i : InstanceId} {member member' : Member} (h : m.Alike r marks m')
    (hmember : member.Alike r marks m.heap.frames.size member') :
    Agrees r marks m m' (readMember i member) (readMember i member') Equal := by
  cases hmember with
  | field => exact pure h rfl
  | method hc =>
    obtain ⟨hheap, hbound⟩ := h.heap.bindReceiver h.nonempty hc (.instance_ i)
    obtain ⟨hid, hheap⟩ := hheap.newFunction hbound
    exact (withHeap h hheap (marks.extends_add _ _) (Frames.grows_push _ _) hid.symm).map

variable {name name' : Token}

theorem getMember {start : ClassId} {i : InstanceId} (h : m.Alike r marks m')
    (hname : name.Alike r name') :
    Agrees r marks m m' (getMember start i name) (getMember start i name') Equal := by
  refine get_bind ?_
  rw [hname.lexeme]
  have hmember := h.heap.rel_member? start i name.lexeme
  generalize m.heap.member? start i name.lexeme = o at hmember
  generalize m'.heap.member? start i name.lexeme = o' at hmember
  cases hmember with
  | none => exact fail h hname.line
  | some hmember => exact readMember h hmember

theorem getProperty {object : Value} (h : m.Alike r marks m') (hname : name.Alike r name') :
    Agrees r marks m m' (getProperty object name) (getProperty object name') Equal := by
  refine get_bind ?_
  cases object with
  | instance_ i =>
    simp only [h.heap.inst_eq]
    exact getMember h hname
  | class_ c =>
    simp only [hname.lexeme, h.heap.classField?_eq]
    cases m.heap.classField? c name.lexeme with
    | some v => exact pure h rfl
    | none => exact fail h hname.line
  | _ => exact fail h hname.line

theorem setProperty {object : Value} {value value' : Exec Value} (h : m.Alike r marks m')
    (hname : name.Alike r name') (hvalue : Agrees r marks m m' value value' Equal) :
    Agrees r marks m m' (setProperty object name value) (setProperty object name' value')
      Equal := by
  cases object with
  | instance_ i =>
    refine hvalue.bind_equal fun marks₁ m₁ m₁' v hev => ?_
    refine bind_equal (modifyHeap hev.alike ?_ (.refl _)) fun _ _ _ _ hev => pure hev.alike rfl
    exact hev.alike.heap.change (fun _ _ => rfl) (.refl _) hev.alike.heap.frames_size
      hev.alike.heap.frames hev.alike.heap.globals rfl rfl rfl rfl
      (by simp only [Heap.setField, hev.alike.heap.instances, hname.lexeme])
  | class_ c =>
    refine hvalue.bind_equal fun marks₁ m₁ m₁' v hev => ?_
    refine bind_equal (modifyHeap hev.alike ?_ (.refl _)) fun _ _ _ _ hev => pure hev.alike rfl
    rw [hname.lexeme]
    exact hev.alike.heap.setClassField c name.lexeme v
  | _ => exact fail h hname.line

theorem superMember {id id' : NodeId} {d : Option Nat} {keyword keyword' : Token}
    (h : m.Alike r marks m') (hfit : marks.Fit m.chain flags) (hid : r.same id id' d)
    (hkeyword : keyword.lexeme = "super") (hsame : keyword.Alike r keyword')
    (hname : name.Alike r name') :
    Agrees r marks m m' (superMember id keyword name) (superMember id' keyword' name') Equal := by
  -- Neither keyword is a name that is replaced.
  have hget : ∀ (d : Nat) (x : String), x ≠ r.old → x ≠ r.new →
      (∃ v, m.heap.frames.getAt m.chain d x = .ok v ∧ m'.heap.frames.getAt m.chain d x = .ok v) ∨
        ∃ fault, m.heap.frames.getAt m.chain d x = .error fault ∧ fault.isMisbinding = true := by
    intro d x hold hnew
    have hget := h.heap.getAt_eq (d := d) hfit fun _ => hnew
    rwa [NameChange.name_of_ne fun _ => hold] at hget
  refine get_bind ?_
  obtain ⟨hd, hd'⟩ := h.locals id id' d hid
  rw [hd, hd', h.chain, hsame.lexeme, hkeyword]
  rcases d with - | - | d
  · exact fail h hsame.line
  · exact fail h hsame.line
  · refine bind_equal (ofExcept_found h (hget _ _ r.old_ne.2.symm r.new_ne.2.symm))
      fun _ _ _ superclass hev => ?_
    refine bind_equal (ofExcept_found hev.alike (hget _ _ r.old_ne.1.symm r.new_ne.1.symm))
      fun _ _ _ receiver hev => ?_
    split
    · exact getMember hev.alike hname
    · exact fail hev.alike hsame.line

end Agrees

/-! ## Operators, blocks and calls -/

theorem Token.Alike.applyUnary_eq {op op' : Token} (h : op.Alike r op') (v : Value) :
    applyUnary op' v = applyUnary op v := by
  simp only [applyUnary, h.kind]

theorem Token.Alike.applyBinary_eq {op op' : Token} (h : op.Alike r op') (a b : Value) :
    applyBinary op' a b = applyBinary op a b := by
  simp only [applyBinary, numericOperands, h.kind, h.lexeme]

theorem Token.Alike.shortCircuits_eq {op op' : Token} (h : op.Alike r op') (v : Value) :
    shortCircuits op' v = shortCircuits op v := by
  rw [shortCircuits, shortCircuits, h.is_eq]

/-- Running this for expressions that are alike does the same. -/
def EvaluatesAlike (r : Likeness) (eval : Expr → Exec Value) : Prop :=
  ∀ {marks : Marks} {m m' : Machine} {flags : List Bool} {e e' : Expr}, m.Alike r marks m' →
    marks.Fit m.chain flags → e.Alike r flags e' → Agrees r marks m m' (eval e) (eval e') Equal

/-- Running this for statements that are alike does the same. -/
def ExecutesAlike (r : Likeness) (exec : Stmt → Exec Completion) : Prop :=
  ∀ {marks : Marks} {m m' : Machine} {flags : List Bool} {s s' : Stmt}, m.Alike r marks m' →
    marks.Fit m.chain flags → s.Alike r flags s' → Agrees r marks m m' (exec s) (exec s') Equal

/-- The frames of calls with the same arguments. -/
theorem Frame.Alike.callFrame {flag : Bool} {params params' : List Token}
    (hparams : List.Forall₂ (fun p p' => r.Avoids flag p ∧ p'.lexeme = r.name flag p.lexeme)
      params params') (arguments : List Value) :
    Frame.Alike r flag (callFrame params arguments) (callFrame params' arguments) := by
  have hfold : ∀ frame frame' : Frame, frame.Alike r flag frame' →
      Frame.Alike r flag
        ((params.zip arguments).foldl (fun frame p => frame.insert p.1.lexeme p.2) frame)
        ((params'.zip arguments).foldl (fun frame p => frame.insert p.1.lexeme p.2) frame') := by
    induction hparams generalizing arguments with
    | nil => exact fun _ _ hframe => hframe
    | cons hp _ ih =>
      intro frame frame' hframe
      cases arguments with
      | nil => exact hframe
      | cons v arguments =>
        have hinsert := hframe.insert hp.1 v
        rw [← hp.2] at hinsert
        exact ih arguments _ _ hinsert
  exact hfold _ _ (.empty flag)

namespace Agrees

variable {eval : Expr → Exec Value} {exec : Stmt → Exec Completion}

theorem evaluateAll (heval : EvaluatesAlike r eval) {es es' : List Expr} (h : m.Alike r marks m')
    (hfit : marks.Fit m.chain flags) (hes : Exprs.Alike r flags es es') :
    Agrees r marks m m' (evaluateAll eval es) (evaluateAll eval es') Equal := by
  induction es generalizing es' marks m m' with
  | nil =>
    cases hes
    exact pure h rfl
  | cons e es ih =>
    obtain - | ⟨he, hes⟩ := hes
    refine (heval h hfit he).bind_equal fun _ _ _ v hev => ?_
    refine (ih hev.alike (hev.fit_chain h hfit) hes).bind_equal fun _ _ _ vs hev => ?_
    exact pure hev.alike rfl

theorem executeAll (hexec : ExecutesAlike r exec) {ss ss' : List Stmt} (h : m.Alike r marks m')
    (hfit : marks.Fit m.chain flags) (hss : Stmts.Alike r flags ss ss') :
    Agrees r marks m m' (executeAll exec ss) (executeAll exec ss') Equal := by
  induction ss generalizing ss' marks m m' with
  | nil =>
    cases hss
    exact pure h rfl
  | cons s ss ih =>
    obtain - | ⟨hs, hss⟩ := hss
    refine (hexec h hfit hs).bind_equal fun _ _ _ completion hev => ?_
    cases completion with
    | normal => exact ih hev.alike (hev.fit_chain h hfit) hss
    | returned v => exact pure hev.alike rfl

/-- A body is run in a frame with the mark of its scope. -/
theorem executeInFrame (hexec : ExecutesAlike r exec) {frame frame' : Frame} {chain : Chain}
    {flag : Bool} {body body' : List Stmt} (h : m.Alike r marks m')
    (hbounded : ∀ i ∈ chain, i < m.heap.frames.size) (hfit : marks.Fit chain flags)
    (hframe : frame.Alike r flag frame') (hbody : Stmts.Alike r (flag :: flags) body body') :
    Agrees r marks m m' (executeInFrame exec frame chain body)
      (executeInFrame exec frame' chain body') Equal := by
  refine (newFrame h hframe).bind fun marks₁ m₁ m₁' i i' hev hi => ?_
  obtain ⟨rfl, hlt, hmark⟩ := hi
  have hall : ∀ j ∈ i' :: chain, j < m₁.heap.frames.size :=
    List.forall_mem_cons.2 ⟨hlt, hev.bounded hbounded⟩
  exact inChain (executeAll hexec (hev.alike.withChain hall) ((hev.fit hbounded hfit).cons hmark)
    hbody) hev.alike

/-- Functions that are alike. -/
theorem runClosure (hexec : ExecutesAlike r exec) {c c' : Closure} {arguments : List Value}
    (h : m.Alike r marks m') (hc : c.Alike r marks m.heap.frames.size [] c') :
    Agrees r marks m m' (runClosure exec c arguments) (runClosure exec c' arguments) Equal := by
  obtain ⟨⟨name, params, body⟩, chain, isInitializer⟩ := c
  obtain ⟨decl', chain', isInitializer'⟩ := c'
  obtain ⟨hchain, hbounded, hinit, flags, hfit, hdecl⟩ := hc
  dsimp only at hchain hbounded hinit hfit
  subst hchain hinit
  obtain ⟨flag, -, hparams, hbody⟩ := hdecl
  refine (executeInFrame hexec h hbounded hfit (.callFrame hparams arguments) hbody).bind_equal
    fun _ _ _ completion hev => ?_
  cases isInitializer' with
  | false => cases completion <;> exact pure hev.alike rfl
  | true =>
    refine get_bind (ofExcept_found hev.alike ?_)
    have hget := hev.alike.heap.getAt_eq (d := 0) (hev.fit hbounded hfit) fun _ => r.new_ne.1.symm
    rwa [NameChange.name_of_ne fun _ => r.old_ne.1.symm] at hget

theorem construct (hexec : ExecutesAlike r exec) {c : ClassId} {arguments : List Value}
    (h : m.Alike r marks m') :
    Agrees r marks m m' (construct exec c arguments) (construct exec c arguments) Equal := by
  have hheap : (m.heap.newInstance c).2.Alike r marks (m'.heap.newInstance c).2 :=
    h.heap.change (fun _ _ => rfl) (.refl _) h.heap.frames_size h.heap.frames h.heap.globals rfl rfl
      rfl rfl (by simp only [Heap.newInstance, h.heap.instances])
  have hid : (m'.heap.newInstance c).1 = (m.heap.newInstance c).1 :=
    congrArg Array.size h.heap.instances
  refine bind_equal (withHeap h hheap (fun _ _ => rfl) (.refl _) hid) fun marks₁ m₁ m₁' i hev => ?_
  refine get_bind ?_
  have hinit := hev.alike.heap.rel_initializer? c
  generalize m₁.heap.initializer? c = o at hinit
  generalize m₁'.heap.initializer? c = o' at hinit
  cases hinit with
  | none => exact pure hev.alike rfl
  | @some init init' hinit =>
    obtain ⟨hheap, hbound⟩ := hev.alike.heap.bindReceiver hev.alike.nonempty hinit (.instance_ i)
    have hbind : Agrees r marks₁ m₁ m₁'
        (Exec.withHeap fun heap => heap.bindReceiver init (.instance_ i))
        (Exec.withHeap fun heap => heap.bindReceiver init' (.instance_ i))
        fun marks₂ m₂ c c' => c.Alike r marks₂ m₂.heap.frames.size [] c' :=
      withHeap hev.alike hheap (marks₁.extends_add _ _) (Frames.grows_push _ _) hbound
    refine hbind.bind fun marks₂ m₂ m₂' bound bound' hev hbound => ?_
    exact (runClosure hexec hev.alike hbound).bind_equal fun _ _ _ _ hev => pure hev.alike rfl

theorem invoke (hexec : ExecutesAlike r exec) {f f' : Callable} {arguments : List Value}
    (h : m.Alike r marks m') (hf : f.Alike r marks m.heap.frames.size f') :
    Agrees r marks m m' (invoke exec arguments f) (invoke exec arguments f') Equal := by
  cases hf with
  | closure hc => exact runClosure hexec h hc
  | @native f =>
    cases f with
    | clock => exact readClock h
    | printNative => exact (writeLine h).bind_equal fun _ _ _ _ hev => pure hev.alike rfl
  | constructor => exact construct hexec h

theorem callValue (hexec : ExecutesAlike r exec) {callee : Value} {paren paren' : Token}
    {arguments : List Value} (h : m.Alike r marks m') (hparen : paren.Alike r paren') :
    Agrees r marks m m' (callValue exec callee paren arguments)
      (callValue exec callee paren' arguments) Equal := by
  refine get_bind ?_
  have hf := h.heap.rel_callable? callee
  generalize m.heap.callable? callee = o at hf
  generalize m'.heap.callable? callee = o' at hf
  cases hf with
  | none => exact fail h hparen.line
  | some hf =>
    simp only [h.heap.arity_eq hf, h.depth]
    split
    · exact fail h hparen.line
    · split
      · exact fail h hparen.line
      · have hdeeper : Machine.Alike r marks { m with depth := m.depth + 1 }
            { m' with depth := m'.depth + 1 } :=
          ⟨h.heap, h.nonempty, h.chain, h.bounded, congrArg (· + 1) h.depth, h.sink, h.clock,
            h.locals⟩
        exact nested (invoke hexec hdeeper hf)

/-! ## Classes -/

/-- Superclasses that are alike are the same class. -/
theorem superclassOf (heval : EvaluatesAlike r eval) {name name' : Token} {o o' : Option Expr}
    (h : m.Alike r marks m') (hfit : marks.Fit m.chain flags) (hname : name.Alike r name')
    (ho : Expr.OptionAlike r flags o o') :
    Agrees r marks m m' (superclassOf eval name o) (superclassOf eval name' o')
      fun _ _ c c' => c' = c ∧ c.isSome = o.isSome := by
  have hline := ho.line_superclassToken hname
  cases ho with
  | none => exact pure h ⟨rfl, rfl⟩
  | some he =>
    refine (heval h hfit he).bind_equal fun _ _ _ v hev => ?_
    cases v with
    | class_ c => exact pure hev.alike ⟨rfl, rfl⟩
    | _ => exact fail hev.alike hline

/-- The frame of a superclass is not marked. -/
theorem methodChain {superclass : Option ClassId} {o : Option Expr} (h : m.Alike r marks m')
    (hfit : marks.Fit m.chain flags) (ho : superclass.isSome = o.isSome) :
    Agrees r marks m m' (methodChain superclass) (methodChain superclass)
      fun marks₁ m₁ chain chain' => chain' = chain ∧ (∀ i ∈ chain, i < m₁.heap.frames.size) ∧
        marks₁.Fit chain (ClassDecl.flags o flags) := by
  refine get_bind ?_
  rw [ClassDecl.flags, ← ho]
  cases superclass with
  | none => exact pure h ⟨h.chain, h.bounded, hfit⟩
  | some c =>
    refine (newFrame h (.singleton r "super" (.class_ c))).bind fun marks₁ m₁ m₁' i i' hev hi => ?_
    obtain ⟨rfl, hlt, hmark⟩ := hi
    exact pure hev.alike ⟨by rw [h.chain], List.forall_mem_cons.2 ⟨hlt, hev.bounded h.bounded⟩,
      (hev.fit h.bounded hfit).cons hmark⟩

/-- A function is made in the place where it is declared. -/
theorem newFunction {chain : Chain} {decl decl' : FunctionDecl} (h : m.Alike r marks m')
    (hbounded : ∀ i ∈ chain, i < m.heap.frames.size) (hfit : marks.Fit chain flags)
    (hdecl : decl.Alike r flags decl') :
    Agrees r marks m m' (Exec.withHeap fun heap => heap.newFunction ⟨decl, chain, false⟩)
      (Exec.withHeap fun heap => heap.newFunction ⟨decl', chain, false⟩) Equal := by
  have hc : Closure.Alike r marks m.heap.frames.size [] ⟨decl, chain, false⟩
      ⟨decl', chain, false⟩ := ⟨rfl, hbounded, rfl, flags, hfit, hdecl⟩
  obtain ⟨hid, hheap⟩ := h.heap.newFunction hc
  exact withHeap h hheap (fun _ _ => rfl) (.refl _) hid.symm

theorem staticTable {chain : Chain} {ds ds' : List FunctionDecl} {fields : Table Value}
    (h : m.Alike r marks m') (hbounded : ∀ i ∈ chain, i < m.heap.frames.size)
    (hfit : marks.Fit chain flags) (hds : FunctionDecls.Alike r flags ds ds') :
    Agrees r marks m m' (staticTable chain ds fields) (staticTable chain ds' fields) Equal := by
  induction ds generalizing ds' fields marks m m' with
  | nil =>
    cases hds
    exact pure h rfl
  | cons d ds ih =>
    obtain - | ⟨hd, hds⟩ := hds
    refine (newFunction h hbounded hfit hd).bind_equal fun _ _ _ f hev => ?_
    rw [hd.lexeme_name]
    exact ih hev.alike (hev.bounded hbounded) (hev.fit hbounded hfit) hds

end Agrees

/-- The methods of classes that are alike. -/
theorem rel_methodTable {chain : Chain} {size : Nat} {ds ds' : List FunctionDecl}
    (hbounded : ∀ i ∈ chain, i < size) (hfit : marks.Fit chain flags)
    (hds : FunctionDecls.Alike r (false :: flags) ds ds') (x : String) :
    Option.Rel (Closure.Alike r marks size [false]) ((methodTable chain ds).get? x)
      ((methodTable chain ds').get? x) := by
  have hfold : ∀ (t t' : Table Closure),
      Option.Rel (Closure.Alike r marks size [false]) (t.get? x) (t'.get? x) →
        Option.Rel (Closure.Alike r marks size [false])
          ((ds.foldl (fun t d => t.insert d.name.lexeme ⟨d, chain, d.isInitializer⟩) t).get? x)
          ((ds'.foldl (fun t d => t.insert d.name.lexeme ⟨d, chain, d.isInitializer⟩) t').get?
            x) := by
    induction ds generalizing ds' with
    | nil =>
      cases hds
      exact fun _ _ ht => ht
    | cons d ds ih =>
      obtain - | ⟨hd, hds⟩ := hds
      intro t t' ht
      refine ih hds _ _ ?_
      rw [Table.get?_insert, Table.get?_insert, hd.lexeme_name]
      split
      · refine .some ⟨rfl, hbounded, ?_, flags, hfit, hd⟩
        simp only [FunctionDecl.isInitializer, hd.lexeme_name]
      · exact ht
  exact hfold ∅ ∅ .none

namespace Agrees

variable {eval : Expr → Exec Value} {exec : Stmt → Exec Completion}

/-- The name of a class is overwritten in the frame that it was defined in. -/
theorem assign {name name' : Token} {v : Value} (h : m.Alike r marks m')
    (hfit : marks.Fit m.chain flags) (hname : r.Keeps (flags.headD false) name)
    (hsame : name.Alike r name')
    (hhead : ∀ i ∈ m.chain.head?, (m.heap.frames.frame i).contains name.lexeme = true) :
    Agrees r marks m m' (assign m.chain name v) (assign m'.chain name' v) Equal := by
  refine get_bind ?_
  have hbounded := h.bounded
  rw [h.chain, hsame.lexeme]
  cases hchain : m.chain with
  | nil => exact fail h hsame.line
  | cons i outer =>
    rw [hchain] at hfit hhead hbounded
    rw [← hfit.head] at hname
    have hcontains := hhead i rfl
    have hcontains' : (m'.heap.frames.frame i).contains name.lexeme = true := by
      rw [Table.contains, (h.heap.frames i).get?_of_ne (fun hi => (hname hi).1) hname.avoids]
      exact hcontains
    simp only [Frames.holder, hcontains, hcontains', if_true]
    exact defineIn h (hbounded i (List.mem_cons_self ..)) hname.avoids hname.name_eq.symm

theorem declareClass (heval : EvaluatesAlike r eval) {name name' : Token}
    {superclass superclass' : Option Expr} {methods methods' statics statics' : List FunctionDecl}
    (h : m.Alike r marks m') (hfit : marks.Fit m.chain flags)
    (hname : r.Keeps (flags.headD false) name) (hsame : name.Alike r name')
    (hsuper : Expr.OptionAlike r flags superclass superclass')
    (hmethods : FunctionDecls.Alike r (false :: ClassDecl.flags superclass flags) methods methods')
    (hstatics : FunctionDecls.Alike r (ClassDecl.flags superclass flags) statics statics') :
    Agrees r marks m m' (declareClass eval ⟨name, superclass, methods, statics⟩)
      (declareClass eval ⟨name', superclass', methods', statics'⟩) Equal := by
  refine (superclassOf heval h hfit hsame hsuper).bind fun marks₁ m₁ m₁' c c' hev hc => ?_
  obtain ⟨rfl, hsome⟩ := hc
  simp only [hsame.lexeme]
  have hfit₁ := hev.fit_chain h hfit
  refine (define hev.alike hfit₁ hname.avoids hname.name_eq.symm).bind
    fun marks₂ m₂ m₂' _ _ hev₂ hdefined => ?_
  have hfit₂ := hev₂.fit_chain hev.alike hfit₁
  refine (methodChain hev₂.alike hfit₂ hsome).bind
    fun marks₃ m₃ m₃' chain chain' hev₃ hchain => ?_
  obtain ⟨rfl, hbounded, hfit₃⟩ := hchain
  refine (staticTable hev₃.alike hbounded hfit₃ hstatics).bind_equal
    fun marks₄ m₄ m₄' fields hev₄ => ?_
  have hclass : ClassObject.Alike r marks₄ m₄.heap.frames.size
      ⟨name.lexeme, (c'.map m₄.heap.lineage).getD [], Lox.methodTable chain' methods, fields⟩
      ⟨name.lexeme, (c'.map m₄'.heap.lineage).getD [], Lox.methodTable chain' methods', fields⟩ :=
    ⟨rfl, by rw [funext hev₄.alike.heap.lineage_eq], rfl,
      rel_methodTable (hev₄.bounded hbounded) (hev₄.fit hbounded hfit₃) hmethods⟩
  obtain ⟨hid, hheap⟩ := hev₄.alike.heap.newClass hclass
  refine bind_equal (withHeap hev₄.alike hheap (fun _ _ => rfl) (.refl _) hid.symm)
    fun marks₅ m₅ m₅' id hev₅ => get_bind ?_
  -- Since its name was defined, the chain is the same and the frames have only grown.
  have hsince := (hev₃.trans hev₄).trans hev₅
  refine assign hsince.alike (hsince.fit_chain hev₂.alike hfit₂) hname hsame fun i hi => ?_
  rw [hsince.chain, hev₂.chain] at hi
  have hmem : i ∈ m₂.chain := hev₂.chain ▸ List.mem_of_mem_head? hi
  exact hsince.frames.contains i (hev₂.alike.bounded i hmem) _ (hdefined i hi)

/-! ## Expressions and statements -/

mutual

/-- Expressions that are alike do the same. -/
theorem evaluate (fuel : Nat) : EvaluatesAlike r (evaluate fuel) := by
  intro marks m m' flags e e' h hfit he
  cases fuel with
  | zero => exact outOfFuel h
  | succ fuel =>
    have heval : EvaluatesAlike r (Lox.evaluate fuel) := evaluate fuel
    have hexec : ExecutesAlike r (Lox.execute fuel) := execute fuel
    cases he with
    | literal => exact pure h rfl
    | grouping he => exact heval h hfit he
    | unary hop he =>
      refine (heval h hfit he).bind_equal fun _ _ _ v hev => ?_
      rw [hop.applyUnary_eq]
      exact ofExcept _ hev.alike hop.line
    | binary hop ha hb =>
      refine (heval h hfit ha).bind_equal fun _ _ _ a hev => ?_
      refine (heval hev.alike (hev.fit_chain h hfit) hb).bind_equal fun _ _ _ b hev => ?_
      rw [hop.applyBinary_eq]
      exact ofExcept _ hev.alike hop.line
    | logical hop ha hb =>
      refine (heval h hfit ha).bind_equal fun _ _ _ a hev => ?_
      rw [hop.shortCircuits_eq]
      split
      · exact pure hev.alike rfl
      · exact heval hev.alike (hev.fit_chain h hfit) hb
    | conditional hc ha hb =>
      refine (heval h hfit hc).bind_equal fun _ _ _ v hev => ?_
      have hfit := hev.fit_chain h hfit
      split
      · exact heval hev.alike hfit ha
      · exact heval hev.alike hfit hb
    | var hid hname hsame => exact lookUp h hfit hid hname hsame
    | assign hid hname hsame he =>
      refine (heval h hfit he).bind_equal fun _ _ _ v hev => ?_
      exact (overwrite hev.alike (hev.fit_chain h hfit) hid hname hsame).bind_equal
        fun _ _ _ _ hev => pure hev.alike rfl
    | call hparen hf hes =>
      refine (heval h hfit hf).bind_equal fun _ _ _ f hev => ?_
      have hfit := hev.fit_chain h hfit
      refine (evaluateAll heval hev.alike hfit hes).bind_equal fun _ _ _ vs hev => ?_
      exact callValue hexec hev.alike hparen
    | get hname he =>
      exact (heval h hfit he).bind_equal fun _ _ _ v hev => getProperty hev.alike hname
    | set hname he hv =>
      refine (heval h hfit he).bind_equal fun _ _ _ v hev => ?_
      exact setProperty hev.alike hname (heval hev.alike (hev.fit_chain h hfit) hv)
    | @thisRef id id' d keyword keyword' hid hkeyword hsame =>
      have hname : r.Keeps (flagAt flags d) keyword := fun _ =>
        ⟨hkeyword ▸ r.old_ne.1.symm, hkeyword ▸ r.new_ne.1.symm⟩
      exact lookUp h hfit hid hname.avoids (hname.token_eq.symm ▸ hsame)
    | superRef hid hkeyword hsame hname => exact superMember h hfit hid hkeyword hsame hname

/-- Statements that are alike do the same. -/
theorem execute (fuel : Nat) : ExecutesAlike r (execute fuel) := by
  intro marks m m' flags s s' h hfit hs
  cases fuel with
  | zero => exact outOfFuel h
  | succ fuel =>
    have heval : EvaluatesAlike r (Lox.evaluate fuel) := evaluate fuel
    have hexec : ExecutesAlike r (Lox.execute fuel) := execute fuel
    cases hs with
    | expression he =>
      exact (heval h hfit he).bind_equal fun _ _ _ _ hev => pure hev.alike rfl
    | print he =>
      refine (heval h hfit he).bind_equal fun _ _ _ v hev => ?_
      exact (writeLine hev.alike).bind_equal fun _ _ _ _ hev => pure hev.alike rfl
    | varDecl hname hsame ho =>
      cases ho with
      | none =>
        exact (define h hfit hname hsame).bind fun _ _ _ _ _ hev _ => pure hev.alike rfl
      | some he =>
        refine (heval h hfit he).bind_equal fun _ _ _ v hev => ?_
        exact (define hev.alike (hev.fit_chain h hfit) hname hsame).bind
          fun _ _ _ _ _ hev _ => pure hev.alike rfl
    | block flag hbody =>
      refine get_bind ?_
      rw [h.chain]
      exact executeInFrame hexec h h.bounded hfit (.empty flag) hbody
    | ifThen hc ha =>
      refine (heval h hfit hc).bind_equal fun _ _ _ v hev => ?_
      split
      · exact hexec hev.alike (hev.fit_chain h hfit) ha
      · exact pure hev.alike rfl
    | ifElse hc ha hb =>
      refine (heval h hfit hc).bind_equal fun _ _ _ v hev => ?_
      have hfit := hev.fit_chain h hfit
      split
      · exact hexec hev.alike hfit ha
      · exact hexec hev.alike hfit hb
    | whileLoop hc hbody =>
      refine (heval h hfit hc).bind_equal fun _ _ _ v hev => ?_
      have hfit := hev.fit_chain h hfit
      split
      · refine (hexec hev.alike hfit hbody).bind_equal fun _ _ _ completion hev' => ?_
        cases completion with
        | returned v => exact pure hev'.alike rfl
        | normal =>
          exact hexec hev'.alike (hev'.fit_chain hev.alike hfit) (.whileLoop hc hbody)
      · exact pure hev.alike rfl
    | funDecl hname hdecl =>
      refine get_bind ?_
      rw [h.chain, hdecl.lexeme_name]
      refine (newFunction h h.bounded hfit hdecl).bind_equal fun _ _ _ f hev => ?_
      exact (define hev.alike (hev.fit_chain h hfit) hname.avoids hname.name_eq.symm).bind
        fun _ _ _ _ _ hev _ => pure hev.alike rfl
    | returnWith ho =>
      cases ho with
      | none => exact pure h rfl
      | some he => exact (heval h hfit he).bind_equal fun _ _ _ v hev => pure hev.alike rfl
    | classDecl hname hsame hsuper hmethods hstatics =>
      exact (declareClass heval h hfit hname hsame hsuper hmethods hstatics).bind_equal
        fun _ _ _ _ hev => pure hev.alike rfl

end

end Agrees

/-- Programs that are alike do the same. -/
theorem agrees_interpret (fuel : Nat) {ss ss' : List Stmt} (h : m.Alike r marks m')
    (hfit : marks.Fit m.chain flags) (hss : Stmts.Alike r flags ss ss') :
    Agrees r marks m m' (interpret fuel ss) (interpret fuel ss') Equal := by
  induction ss generalizing ss' marks m m' with
  | nil =>
    cases hss
    exact .pure h rfl
  | cons s ss ih =>
    obtain - | ⟨hs, hss⟩ := hss
    refine (Agrees.execute fuel h hfit hs).bind_equal fun _ _ _ _ hev => ?_
    exact ih hev.alike (hev.fit_chain h hfit) hss

end Lox
