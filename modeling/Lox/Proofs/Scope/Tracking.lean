import Lox.Proofs.Scope.Binding
import Lox.Proofs.Scope.Relabeling
import Lox.Proofs.Scope.Rules

/-!
# When a walk reports nothing

The open scopes of the walk through a program know of each name whether something has read it. A
walk that reports nothing has noted so the nodes that read a name, each in the scope that its name
is bound to, and nothing else. So when a scope is closed nothing is reported if and only if each
name that the scope declares is read by a node inside it. What the other steps of a walk report
depends on the scopes around only, so for each step there is a law under which it reports nothing.
-/

namespace Lox

variable {scope : Scope} {name : Token} {outer scopes : List Scope} {x : String} {v : Visit}
  {w : Walk Unit} {f : Unit → Walk Unit}

/-- A scope has each name once, and the names that the language provides count as read. -/
structure Scope.Regular (scope : Scope) : Prop where
  distinct : scope.Distinct
  provided : ∀ x v, x = "this" ∨ x = "super" → scope.get? x = some v → v.used = true

theorem Scope.regular_empty : Scope.Regular ∅ := ⟨Table.distinct_empty, by simp⟩

theorem Scope.Regular.insert (h : scope.Regular) {name : String} {v : Variable}
    (hname : name = "this" ∨ name = "super" → v.used = true) :
    Scope.Regular (scope.insert name v) where
  distinct := h.distinct.insert name v
  provided x u hx hu := by
    rw [Table.get?_insert] at hu
    split at hu
    case isTrue heq =>
      subst heq
      exact Option.some.inj hu ▸ hname hx
    case isFalse => exact h.provided x u hx hu

theorem Scope.Regular.modify (h : scope.Regular) (name : String) {f : Variable → Variable}
    (hf : ∀ v, v.used = true → (f v).used = true) : Scope.Regular (scope.modify name f) where
  distinct := h.distinct.modify name f
  provided x u hx hu := by
    rw [Table.get?_modify] at hu
    split at hu
    · obtain ⟨v, hv, rfl⟩ := Option.map_eq_some_iff.1 hu
      exact hf v (h.provided x v hx hv)
    · exact h.provided x u hx hu

namespace Scopes

def Regular (scopes : List Scope) : Prop := ∀ scope ∈ scopes, scope.Regular

/-- It is noted that a name is read, in the scope that has `j` scopes around it. -/
def Used : List Scope → Nat → String → Prop
  | [], _, _ => False
  | scope :: outer, j, x =>
    if j = outer.length then ∃ v, scope.get? x = some v ∧ v.used = true else Used outer j x

theorem used_cons_of_lt {j : Nat} (h : j < outer.length) :
    Used (scope :: outer) j x ↔ Used outer j x := by
  rw [Used, if_neg (by omega)]

theorem used_cons_length :
    Used (scope :: outer) outer.length x ↔ ∃ v, scope.get? x = some v ∧ v.used = true := by
  rw [Used, if_pos rfl]

/-- What is noted of other names, or apart from what is read, does not matter. -/
theorem used_congr {scope' : Scope} {j : Nat}
    (h : (scope'.get? x).map Variable.used = (scope.get? x).map Variable.used) :
    Used (scope' :: outer) j x ↔ Used (scope :: outer) j x := by
  have hused : ∀ o : Option Variable,
      (∃ v, o = some v ∧ v.used = true) ↔ o.map Variable.used = some true := by
    intro o
    cases o <;> simp
  simp only [Used, hused, h]

end Scopes

/-- The open scopes declare the names that the scopes around code declare. -/
inductive Declares : List Scope → List Layer → Prop
  | nil : Declares [] []
  | cons {scope : Scope} {l : Layer} {scopes : List Scope} {layers : List Layer} :
      (∀ x, scope.contains x = true ↔ x ∈ l.names) → Declares scopes layers →
        Declares (scope :: scopes) (l :: layers)

theorem Mirrors.declares {layers : List Layer} (h : Mirrors scopes layers) :
    Declares scopes layers := by
  induction h with
  | nil => exact .nil
  | cons hs _ ih =>
    exact .cons (fun x => by rw [Scope.contains_iff, hs x, Layer.status_isSome]) ih

theorem Declares.length_eq {layers : List Layer} (h : Declares scopes layers) :
    scopes.length = layers.length := by
  induction h with
  | nil => rfl
  | cons _ _ ih => simp [ih]

theorem Mirrors.length_eq {layers : List Layer} (h : Mirrors scopes layers) :
    scopes.length = layers.length := h.declares.length_eq

theorem Declares.markUsed {layers : List Layer} (h : Declares scopes layers) (name : String) :
    Declares (Scopes.markUsed name scopes) layers := by
  induction h with
  | nil => exact .nil
  | @cons scope l scopes layers hs h ih =>
    unfold Scopes.markUsed
    split
    · refine .cons (fun x => ?_) h
      rw [← hs x, Table.contains, Table.get?_modify, Table.contains]
      split
      · rw [Option.isSome_map]
      · rfl
    · exact .cons hs ih

theorem Scopes.Regular.markUsed (h : Scopes.Regular scopes) (name : String) :
    Scopes.Regular (Scopes.markUsed name scopes) := by
  induction scopes with
  | nil => exact h
  | cons scope scopes ih =>
    obtain ⟨hscope, hrest⟩ := List.forall_mem_cons.1 h
    unfold Scopes.markUsed
    split
    · exact List.forall_mem_cons.2 ⟨hscope.modify _ fun _ _ => rfl, hrest⟩
    · exact List.forall_mem_cons.2 ⟨hscope, ih hrest⟩

/-- A name that is read is noted in the scope that it is bound to. -/
theorem Declares.used_markUsed {layers : List Layer} (h : Declares scopes layers) (name : String)
    (j : Nat) (x : String) : Scopes.Used (Scopes.markUsed name scopes) j x ↔
      Scopes.Used scopes j x ∨ name = x ∧ Layers.BoundAt layers x j := by
  induction h with
  | nil => simp [Scopes.Used, Scopes.markUsed, Layers.boundAt_nil]
  | @cons scope l scopes layers hs h ih =>
    rw [Layers.boundAt_cons, ← h.length_eq]
    by_cases hname : name ∈ l.names
    · rw [Scopes.markUsed, if_pos ((hs name).2 hname)]
      by_cases hx : name = x
      · subst hx
        obtain ⟨v, hv⟩ := Option.isSome_iff_exists.1 ((hs name).2 hname)
        simp only [Scopes.Used, Table.get?_modify, hv, hname, if_true]
        by_cases hj : j = scopes.length <;> simp [hj]
      · rw [or_iff_left (by simp [hx])]
        refine Scopes.used_congr ?_
        rw [Table.get?_modify, if_neg (Ne.symm hx)]
    · have hfalse : scope.contains name = false := by
        rw [← Bool.not_eq_true, hs name]
        exact hname
      rw [Scopes.markUsed, hfalse, if_neg Bool.false_ne_true]
      have hlength : (Scopes.markUsed name scopes).length = scopes.length := by
        rw [(h.markUsed name).length_eq, h.length_eq]
      simp only [Scopes.Used, hlength, ih]
      by_cases hj : j = scopes.length
      · have hfar : ¬ Layers.BoundAt layers x j := by
          rintro ⟨d, -, hd⟩
          rw [hj, h.length_eq] at hd
          omega
        by_cases hx : name = x
        · subst hx
          simp [hj, hname, hj ▸ hfar]
        · simp [hj, hx]
      · by_cases hx : name = x
        · subst hx
          simp [hj, hname]
        · simp [hj, hx]

/-- What a node that reads its name adds to what is noted. Names that the language provides are not
looked at. -/
theorem Declares.used_markUsed_iff {layers : List Layer} {name : String} {j : Nat}
    (h : Declares scopes layers) (hname : v.name = name) (hlayers : v.layers = layers)
    (huse : v.use = .read ∨ v.use ≠ .read ∧ (v.name = "this" ∨ v.name = "super"))
    (hthis : x ≠ "this") (hsuper : x ≠ "super") : Scopes.Used (Scopes.markUsed name scopes) j x ↔
      Scopes.Used scopes j x ∨ ∃ u ∈ [v], u.Reads x j := by
  rw [h.used_markUsed]
  refine or_congr_right ?_
  simp only [List.mem_singleton, exists_eq_left, Visit.Reads, hlayers]
  rcases huse with huse | ⟨huse, hprovided⟩
  · simp [huse, hname]
  · have hne : name ≠ x := by
      rw [← hname]
      rintro rfl
      exact hprovided.elim hthis hsuper
    simp [huse, hne]

namespace Layers

variable {layers : List Layer}

@[simp] theorem length_declare (name : String) : (declare name layers).length = layers.length := by
  cases layers <;> rfl

@[simp] theorem length_await (name : String) : (await name layers).length = layers.length := by
  cases layers <;> rfl

@[simp] theorem after_eq_nil_iff (s : Stmt) : after layers s = [] ↔ layers = [] := by
  unfold after
  cases s.declared? <;> cases layers <;> simp [declare]

/-- A name may be declared: the innermost scope does not declare it yet. -/
def Free (layers : List Layer) (name : String) : Prop := ∀ l ∈ layers.head?, name ∉ l.names

/-- A name may be read: the innermost scope is not at its initializer. -/
def Ready (layers : List Layer) (name : String) : Prop :=
  ∀ l ∈ layers.head?, name ∈ l.names → l.pending ≠ some name

/-- Names may be declared one after another. -/
def Fits (layers : List Layer) (names : List String) : Prop :=
  ∀ l ∈ layers.head?, names.Nodup ∧ ∀ x ∈ names, x ∉ l.names

@[simp] theorem fits_nil : Fits layers [] := by simp [Fits]

theorem fits_cons_iff {xs : List String} :
    Fits layers (x :: xs) ↔ Free layers x ∧ Fits (declare x layers) xs := by
  cases layers with
  | nil => simp [Fits, Free, declare]
  | cons l outer =>
    simp only [Fits, Free, declare, List.head?_cons, Option.mem_some_iff, forall_eq',
      List.nodup_cons, List.mem_cons, forall_eq_or_imp]
    constructor
    · rintro ⟨⟨hx, hxs⟩, hfree, hrest⟩
      exact ⟨hfree, hxs, fun y hy => not_or.2 ⟨fun h => hx (h ▸ hy), hrest y hy⟩⟩
    · rintro ⟨hfree, hxs, hrest⟩
      exact ⟨⟨fun hx => (hrest x hx) (.inl rfl), hxs⟩, hfree, fun y hy => (not_or.1 (hrest y hy)).2⟩

theorem fits_singleton_iff : Fits layers [x] ↔ Free layers x := by
  simp [fits_cons_iff]

theorem fits_declared_cons_iff {s : Stmt} {ss : List Stmt} :
    Fits layers (Stmts.declared (s :: ss)) ↔
      Fits layers (Stmts.declared [s]) ∧ Fits (after layers s) (Stmts.declared ss) := by
  unfold after
  cases hs : s.declared? with
  | none => simp [Stmts.declared, hs]
  | some name => simp [Stmts.declared, hs, fits_cons_iff]

/-- The names behind statements are those before them and those that they declare. -/
theorem exists_foldl_after (l : Layer) (outer : List Layer) (ss : List Stmt) :
    ∃ l', ss.foldl after (l :: outer) = l' :: outer ∧
      ∀ x, x ∈ l'.names ↔ x ∈ Stmts.declared ss ∨ x ∈ l.names := by
  induction ss generalizing l with
  | nil => exact ⟨l, rfl, by simp [Stmts.declared]⟩
  | cons s ss ih =>
    rw [List.foldl_cons]
    cases hs : s.declared? with
    | none =>
      obtain ⟨l', hl', hnames⟩ := ih l
      have hstep : after (l :: outer) s = l :: outer := by simp [after, hs]
      rw [hstep]
      exact ⟨l', hl', by simpa [Stmts.declared, hs] using hnames⟩
    | some name =>
      have hstep : after (l :: outer) s = declare name.lexeme (l :: outer) := by simp [after, hs]
      obtain ⟨l', hl', hnames⟩ := ih { l with names := name.lexeme :: l.names, pending := none }
      rw [hstep]
      refine ⟨l', hl', fun x => ?_⟩
      rw [hnames]
      simp [Stmts.declared, hs, or_left_comm, or_assoc]

end Layers

/-! ## Walks -/

/-- From open scopes that agree with `layers`, a walk reports nothing if and only if `law` holds.
Then the scopes agree with `layers'`, and the names that are noted as read are those that were
before and those that the nodes `vs` read. -/
def Walk.Abides (w : Walk Unit) (layers layers' : List Layer) (vs : List Visit) (law : Prop) : Prop :=
  layers'.length = layers.length ∧
    ∀ scopes, Mirrors scopes layers → Scopes.Regular scopes →
      ((w scopes).findings.faults = [] ↔ law) ∧
      (law → Mirrors (w scopes).scopes layers' ∧ Scopes.Regular (w scopes).scopes ∧
        ∀ x j, x ≠ "this" → x ≠ "super" → j < layers.length →
          (Scopes.Used (w scopes).scopes j x ↔ Scopes.Used scopes j x ∨ ∃ v ∈ vs, v.Reads x j))

namespace Walk

variable {layers layers₁ layers₂ : List Layer} {vs us : List Visit} {law law' : Prop}

theorem Abides.congr (h : w.Abides layers layers₁ vs law) (hlaw : law ↔ law') :
    w.Abides layers layers₁ vs law' := by
  rwa [← hlaw]

theorem abides_pure : Abides (pure ()) layers layers [] True :=
  ⟨rfl, fun _ h hr => ⟨by simp, fun _ => ⟨h, hr, by simp⟩⟩⟩

/-- One walk and then another. -/
theorem Abides.bind (hw : w.Abides layers layers₁ vs law)
    (hf : (f ()).Abides layers₁ layers₂ us law') :
    (w >>= f).Abides layers layers₂ (vs ++ us) (law ∧ law') := by
  refine ⟨hf.1.trans hw.1, fun scopes h hr => ?_⟩
  obtain ⟨hfaults, hafter⟩ := hw.2 scopes h hr
  rw [bind_apply]
  simp only [Findings.faults_append, List.append_eq_nil_iff, hfaults]
  by_cases hlaw : law
  · obtain ⟨h₁, hr₁, hused₁⟩ := hafter hlaw
    obtain ⟨hfaults', hafter'⟩ := hf.2 _ h₁ hr₁
    refine ⟨by rw [hfaults'], fun hboth => ?_⟩
    obtain ⟨h₂, hr₂, hused₂⟩ := hafter' hboth.2
    refine ⟨h₂, hr₂, fun x j hthis hsuper hj => ?_⟩
    rw [hused₂ x j hthis hsuper (hw.1 ▸ hj), hused₁ x j hthis hsuper hj, or_assoc]
    simp only [List.mem_append, or_and_right, exists_or]
  · exact ⟨by simp [hlaw], fun hboth => absurd hboth.1 hlaw⟩

/-- A walk that reads nothing, and then another. -/
theorem Abides.silent_bind (hw : w.Abides layers layers₁ [] law)
    (hf : (f ()).Abides layers₁ layers₂ us law') :
    (w >>= f).Abides layers layers₂ us (law ∧ law') := hw.bind hf

/-- A walk, and then one that reads nothing. -/
theorem Abides.bind_silent (hw : w.Abides layers layers₁ vs law)
    (hf : (f ()).Abides layers₁ layers₂ [] law') :
    (w >>= f).Abides layers layers₂ vs (law ∧ law') := by
  simpa using hw.bind hf

theorem abides_report {t : Token} {fault : ScopeFault} :
    Abides (report t fault) layers layers vs False :=
  ⟨rfl, fun _ _ _ => ⟨by simp [report], False.elim⟩⟩

/-- A report, and then any walk. -/
theorem abides_report_bind {t : Token} {fault : ScopeFault} (hlen : layers₁.length = layers.length) :
    (report t fault >>= f).Abides layers layers₁ vs False :=
  ⟨hlen, fun _ _ _ => ⟨by simp [bind_apply, report], False.elim⟩⟩

/-- What a scope belongs to does not matter. -/
theorem Abides.renameRegion {l : Layer} (hw : w.Abides (l :: layers) (l :: layers₁) vs law)
    (region : Region) :
    w.Abides ({ l with region := region } :: layers) ({ l with region := region } :: layers₁) vs
      law := by
  refine ⟨by simpa using hw.1, fun scopes h hr => ?_⟩
  obtain ⟨hfaults, hafter⟩ := hw.2 scopes (h.renameRegion l.region) hr
  refine ⟨hfaults, fun hlaw => ?_⟩
  obtain ⟨h', hrest⟩ := hafter hlaw
  exact ⟨h'.renameRegion region, hrest⟩

/-- To declare a name twice in one scope is the only fault of a declaration. -/
theorem abides_declare (hname : name.IsName) (hlayers : Settled layers) :
    (declare name).Abides layers (Layers.await name.lexeme layers) []
      (Layers.Free layers name.lexeme) := by
  refine ⟨Layers.length_await _, fun scopes h hr => ?_⟩
  cases h with
  | nil => exact ⟨by simp [declare, Layers.Free], fun _ => ⟨.nil, hr, by simp [declare]⟩⟩
  | @cons scope l scopes layers hs h =>
    have hcontains : scope.contains name.lexeme = true ↔ name.lexeme ∈ l.names := by
      rw [Scope.contains_iff, hs, Layer.status_isSome]
    have hfree : Layers.Free (l :: layers) name.lexeme ↔ name.lexeme ∉ l.names := by simp [Layers.Free]
    have hfollows : (declare name).Follows (l :: layers) (Layers.await name.lexeme (l :: layers)) [] :=
      follows_declare hlayers
    have hmirrors := hfollows (scope :: scopes) (.cons hs h)
    by_cases hc : scope.contains name.lexeme = true
    · refine ⟨?_, fun hlaw => absurd (hcontains.1 hc) (hfree.1 hlaw)⟩
      simp [declare, hc, report, hfree, hcontains.1 hc]
    · have hstep : declare name (scope :: scopes) =
          ⟨(), scope.insert name.lexeme ⟨name, false, false⟩ :: scopes, {}⟩ := by
        simp [declare, hc]
      rw [hstep] at hmirrors ⊢
      refine ⟨by simp [hfree, mt hcontains.2 hc], fun _ => ⟨(hmirrors rfl).1, ?_, ?_⟩⟩
      · obtain ⟨hscope, hrest⟩ := List.forall_mem_cons.1 hr
        refine List.forall_mem_cons.2 ⟨hscope.insert fun hprovided => ?_, hrest⟩
        exact absurd hprovided (not_or.2 hname)
      · intro x j _ _ _
        have hnone : scope.get? name.lexeme = none := by
          simpa [Table.contains] using hc
        by_cases hx : x = name.lexeme
        · subst hx
          simp [Scopes.Used, hnone]
        · rw [or_iff_left (by simp)]
          refine Scopes.used_congr ?_
          rw [Table.get?_insert_of_ne _ _ hx]

theorem abides_define (hlayers : Settled layers) :
    (define name).Abides (Layers.await name.lexeme layers) (Layers.declare name.lexeme layers) []
      True := by
  refine ⟨by simp, fun scopes h hr => ?_⟩
  have hmirrors := follows_define hlayers scopes h
  cases scopes with
  | nil => exact ⟨by simp [define], fun _ => ⟨(hmirrors rfl).1, hr, by simp [define]⟩⟩
  | cons scope scopes =>
    refine ⟨by simp [define], fun _ => ⟨(hmirrors rfl).1, ?_, fun x j _ _ _ => ?_⟩⟩
    · obtain ⟨hscope, hrest⟩ := List.forall_mem_cons.1 hr
      exact List.forall_mem_cons.2 ⟨hscope.modify _ fun _ hv => hv, hrest⟩
    · rw [or_iff_left (by simp)]
      refine Scopes.used_congr ?_
      rw [Table.get?_modify]
      split <;> simp [Function.comp_def]

/-- Declare a name, all at once. -/
theorem abides_declare_define (hname : name.IsName) (hlayers : Settled layers)
    (hw : w.Abides (Layers.declare name.lexeme layers) layers₁ vs law) :
    (do declare name; define name; w : Walk Unit).Abides layers layers₁ vs
      (Layers.Free layers name.lexeme ∧ law) :=
  ((abides_declare hname hlayers).silent_bind ((abides_define hlayers).silent_bind hw)).congr
    (by simp)

theorem abides_bindNode {id : NodeId} (huse : v.use = .write) :
    (bindNode id name).Abides layers layers [v] True := by
  refine ⟨rfl, fun scopes h hr => ⟨by simp [bindNode], fun _ => ⟨h, hr, fun x j _ _ _ => ?_⟩⟩⟩
  simp [bindNode, Visit.Reads, huse]

/-- A node that reads its name. Names that the language provides are not looked at. -/
theorem abides_bindRead {id : NodeId} (hname : v.name = name.lexeme) (hlayers : v.layers = layers)
    (huse : v.use = .read ∨ v.use ≠ .read ∧ (v.name = "this" ∨ v.name = "super")) :
    (bindRead id name).Abides layers layers [v] True := by
  refine ⟨rfl, fun scopes h hr => ⟨by simp [bindRead, bind_apply, bindNode, markUsed], fun _ => ?_⟩⟩
  have hscopes : (bindRead id name scopes).scopes = Scopes.markUsed name.lexeme scopes := rfl
  rw [hscopes]
  refine ⟨h.markUsed _, hr.markUsed _, fun x j hthis hsuper _ => ?_⟩
  exact h.declares.used_markUsed_iff hname hlayers huse hthis hsuper

theorem abides_provide {name : String} {token : Token} {l : Layer} (hl : l.pending = none)
    (hname : name = "this" ∨ name = "super") :
    (provide name token).Abides (l :: layers) ({ l with names := name :: l.names } :: layers) []
      True := by
  refine ⟨rfl, fun scopes h hr => ?_⟩
  have hfollows : (provide name token).Follows (l :: layers)
      ({ l with names := name :: l.names } :: layers) [] := follows_provide hl
  have hmirrors := hfollows scopes h
  cases scopes with
  | nil => cases h
  | cons scope scopes =>
    refine ⟨by simp [provide], fun _ => ⟨(hmirrors rfl).1, ?_, fun x j hthis hsuper _ => ?_⟩⟩
    · obtain ⟨hscope, hrest⟩ := List.forall_mem_cons.1 hr
      exact List.forall_mem_cons.2 ⟨hscope.insert fun _ => rfl, hrest⟩
    · have hx : x ≠ name := by
        rintro rfl
        exact hname.elim hthis hsuper
      rw [or_iff_left (by simp)]
      refine Scopes.used_congr ?_
      rw [Table.get?_insert_of_ne _ _ hx]

/-- A scope for a walk of its own: each name that the program declares in it has to be read. -/
theorem Abides.inScope {w : Walk Unit} {l l' : Layer} (hnames : l.names = [])
    (hw : w.Abides (l :: layers) (l' :: layers) vs law) :
    (inScope w).Abides layers layers vs
      (law ∧ ∀ x ∈ l'.names, x ≠ "this" → x ≠ "super" → ∃ v ∈ vs, v.Reads x layers.length) := by
  refine ⟨rfl, fun scopes h hr => ?_⟩
  have hopen : Mirrors (∅ :: scopes) (l :: layers) :=
    .cons (fun m => by simp [Scope.status, Layer.status, hnames]) h
  obtain ⟨hfaults, hafter⟩ := hw.2 (∅ :: scopes) hopen
    (List.forall_mem_cons.2 ⟨Scope.regular_empty, hr⟩)
  have hrun : Walk.inScope w scopes =
      { closeScope (w (∅ :: scopes)).scopes with
        findings := (w (∅ :: scopes)).findings ++
          (closeScope (w (∅ :: scopes)).scopes).findings } := by
    rfl
  rw [hrun]
  simp only [Findings.faults_append, List.append_eq_nil_iff, hfaults]
  by_cases hlaw : law
  · obtain ⟨h', hr', hused⟩ := hafter hlaw
    generalize (w (∅ :: scopes)).scopes = out at h' hr' hused
    obtain _ | @⟨scope, _, outer, _, hs, houter⟩ := h'
    obtain ⟨hscope, hrouter⟩ := List.forall_mem_cons.1 hr'
    have hlength : outer.length = layers.length := houter.length_eq
    have hread : ∀ x, x ≠ "this" → x ≠ "super" →
        ((∃ v, scope.get? x = some v ∧ v.used = true) ↔ ∃ v ∈ vs, v.Reads x layers.length) := by
      intro x hthis hsuper
      have hx := hused x layers.length hthis hsuper (by simp)
      rw [← hlength, Scopes.used_cons_length, hlength] at hx
      rw [hx, ← h.length_eq, Scopes.used_cons_length]
      simp
    have hdeclared : ∀ x, (scope.get? x).isSome ↔ x ∈ l'.names := fun x => by
      rw [← Layer.status_isSome, ← hs x, Scope.status, Option.isSome_map]
    have hclose : scope.unused = [] ↔
        ∀ x ∈ l'.names, x ≠ "this" → x ≠ "super" → ∃ v ∈ vs, v.Reads x layers.length := by
      rw [Scope.unused_eq_nil_iff]
      constructor
      · intro hall x hx hthis hsuper
        obtain ⟨v, hv⟩ := Option.isSome_iff_exists.1 (hdeclared x |>.2 hx)
        exact (hread x hthis hsuper).1 ⟨v, hv, hall v ((hscope.distinct.mem_values_iff v).2 ⟨x, hv⟩)⟩
      · intro hall v hv
        obtain ⟨x, hx⟩ := (hscope.distinct.mem_values_iff v).1 hv
        by_cases hprovided : x = "this" ∨ x = "super"
        · exact hscope.provided x v hprovided hx
        · obtain ⟨hthis, hsuper⟩ := not_or.1 hprovided
          have hmem : x ∈ l'.names := (hdeclared x).1 (by simp [hx])
          obtain ⟨u, hu, hused⟩ := (hread x hthis hsuper).2 (hall x hmem hthis hsuper)
          rw [hx] at hu
          exact Option.some.inj hu ▸ hused
    refine ⟨by simp [closeScope, hclose], fun _ => ⟨houter, hrouter, fun x j hthis hsuper hj => ?_⟩⟩
    have hx := hused x j hthis hsuper (Nat.lt_succ_of_lt hj)
    rwa [Scopes.used_cons_of_lt (hlength ▸ hj), Scopes.used_cons_of_lt (h.length_eq ▸ hj)] at hx
  · exact ⟨by simp [hlaw], fun hboth => absurd hboth.1 hlaw⟩

/-- The parameters, if there are some, and the statements of a block or a function. -/
theorem Abides.body {w' : Walk Unit} {l l' : Layer} {xs : List String} {ss : List Stmt}
    (region : Region) (hl : l.names = [])
    (hw : w.Abides (l :: layers) (l' :: layers) [] (Layers.Fits (l :: layers) xs))
    (hl' : ∀ x, x ∈ l'.names ↔ x ∈ xs)
    (hw' : w'.Abides (l' :: layers) (ss.foldl Layers.after (l' :: layers)) vs
      (law ∧ Layers.Fits (l' :: layers) (Stmts.declared ss)))
    (hdeclares : region.declares = xs ++ Stmts.declared ss)
    (hnames : ∀ x ∈ region.declares, x ≠ "this" ∧ x ≠ "super")
    (hreads : ∀ x, (∃ v ∈ vs, v.Reads x layers.length) ↔ region.Reads x) :
    (Walk.inScope do w; w').Abides layers layers vs (law ∧ region.Proper) := by
  obtain ⟨l'', hl'', hafter⟩ := Layers.exists_foldl_after l' layers ss
  rw [hl''] at hw'
  refine (Abides.inScope hl (hw.silent_bind hw')).congr ?_
  have hfits : Layers.Fits (l :: layers) xs ∧ Layers.Fits (l' :: layers) (Stmts.declared ss) ↔
      region.declares.Nodup := by
    simp only [Layers.Fits, List.head?_cons, Option.mem_some_iff, forall_eq', hl, hl', hdeclares,
      List.nodup_append]
    constructor
    · rintro ⟨⟨hxs, -⟩, hss, hnew⟩
      exact ⟨hxs, hss, fun x hx y hy heq => hnew y hy (heq ▸ hx)⟩
    · rintro ⟨hxs, hss, hnew⟩
      exact ⟨⟨hxs, by simp⟩, hss, fun y hy hx => hnew y hx y hy rfl⟩
  have hmem : ∀ x, x ∈ l''.names ↔ x ∈ region.declares := fun x => by
    rw [hafter, hl', hdeclares, List.mem_append, or_comm]
  have hread : (∀ x ∈ l''.names, x ≠ "this" → x ≠ "super" → ∃ v ∈ vs, v.Reads x layers.length) ↔
      ∀ x ∈ region.declares, region.Reads x := by
    simp only [hmem, hreads]
    exact forall₂_congr fun x hx => by simp [hnames x hx]
  rw [hread, Region.Proper, ← hfits, and_left_comm, and_assoc]

end Walk

end Lox
