import Lox.Proofs.Scope.Relabeling
import Lox.Proofs.Scope.Renaming
import Mathlib.Data.List.Forall2

/-!
# Binding the names of programs that are alike

The walk through a program that is like another one keeps scopes in which the same is known, under
the new name where a scope is flagged. If the new name is not in use, then a name is declared in the
same scope as before: the scope that it is bound to says how it is written. So the nodes are bound
at the same depths, and nothing is reported if nothing was.
-/

namespace Lox

variable {r : NameChange}
variable {name : Token} {d : Option Nat}

/-! ## Scopes -/

/-- The same is known of two declared names. -/
structure Variable.Alike (v v' : Variable) : Prop where
  initialized : v'.initialized = v.initialized
  used : v'.used = v.used

/-- The same names are declared in two scopes, under the new name if the scope is flagged, and the
same is known of them. -/
def Scope.Alike (r : NameChange) (flag : Bool) (scope scope' : Scope) : Prop :=
  List.Forall₂ (fun e e' => e.1 ≠ r.new ∧ e'.1 = r.name flag e.1 ∧ e.2.Alike e'.2)
    scope.entries scope'.entries

/-- Open scopes that are alike, with their flags. -/
inductive Scopes.Alike (r : NameChange) : List Bool → List Scope → List Scope → Prop
  | nil : Scopes.Alike r [] [] []
  | cons {flag : Bool} {flags : List Bool} {scope scope' : Scope} {outer outer' : List Scope} :
      scope.Alike r flag scope' → Scopes.Alike r flags outer outer' →
        Scopes.Alike r (flag :: flags) (scope :: outer) (scope' :: outer')

namespace Scope.Alike

variable {flag : Bool} {scope scope' : Scope} {x : String}

theorem empty (flag : Bool) : Scope.Alike r flag ∅ ∅ := .nil

theorem rel_get? (h : scope.Alike r flag scope') (hx : x ≠ r.new) :
    Option.Rel Variable.Alike (scope.get? x) (scope'.get? (r.name flag x)) := by
  obtain ⟨entries⟩ := scope
  obtain ⟨entries'⟩ := scope'
  simp only [Scope.Alike, Table.get?] at h ⊢
  induction h with
  | nil => exact .none
  | @cons e e' rest rest' he _ ih =>
    obtain ⟨k, v⟩ := e
    obtain ⟨k', v'⟩ := e'
    obtain ⟨hnew, rfl, hvariable⟩ := he
    by_cases hk : x = k
    · subst hk
      simpa only [List.lookup_cons, beq_self_eq_true] using Option.Rel.some hvariable
    · have hk' := NameChange.name_ne flag flag hx hnew hk
      simpa only [List.lookup_cons, beq_false_of_ne hk, beq_false_of_ne hk'] using ih

theorem contains_eq (h : scope.Alike r flag scope') (hx : x ≠ r.new) :
    scope'.contains (r.name flag x) = scope.contains x := by
  have hget := h.rel_get? hx
  rw [Table.contains, Table.contains]
  generalize scope.get? x = o at hget
  generalize scope'.get? (r.name flag x) = o' at hget
  cases hget with
  | none => rfl
  | some _ => rfl

/-- A name that a scope does not declare is not declared there, however it is written. -/
theorem get?_eq_none (h : scope.Alike r flag scope') (hx : x ≠ r.new) (written : Bool)
    (hnot : scope.get? x = none) : scope'.get? (r.name written x) = none := by
  obtain ⟨entries⟩ := scope
  obtain ⟨entries'⟩ := scope'
  simp only [Scope.Alike, Table.get?] at h hnot ⊢
  induction h with
  | nil => rfl
  | @cons e e' rest rest' he _ ih =>
    obtain ⟨k, v⟩ := e
    obtain ⟨k', v'⟩ := e'
    obtain ⟨hnew, rfl, -⟩ := he
    by_cases hk : x = k
    · simp [hk] at hnot
    · have hk' := NameChange.name_ne written flag hx hnew hk
      simp only [List.lookup_cons, beq_false_of_ne hk, beq_false_of_ne hk'] at hnot ⊢
      exact ih hnot

theorem contains_eq_false (h : scope.Alike r flag scope') (hx : x ≠ r.new) (written : Bool)
    (hnot : scope.contains x = false) : scope'.contains (r.name written x) = false := by
  rw [Table.contains, Option.isSome_eq_false_iff, Option.isNone_iff_eq_none] at hnot ⊢
  exact h.get?_eq_none hx written hnot

/-- A name is declared. -/
theorem insert (h : scope.Alike r flag scope') (hx : x ≠ r.new) {v v' : Variable}
    (hv : v.Alike v') :
    Scope.Alike r flag (scope.insert x v) (scope'.insert (r.name flag x) v') := by
  obtain ⟨entries⟩ := scope
  obtain ⟨entries'⟩ := scope'
  simp only [Scope.Alike, Table.insert] at h ⊢
  induction h with
  | nil => exact .cons ⟨hx, rfl, hv⟩ .nil
  | @cons e e' rest rest' he hrest ih =>
    obtain ⟨k, u⟩ := e
    obtain ⟨k', u'⟩ := e'
    obtain ⟨hnew, rfl, hu⟩ := he
    by_cases hk : x = k
    · subst hk
      simp only [Table.insertEntry, if_true]
      exact .cons ⟨hnew, rfl, hv⟩ hrest
    · have hk' := NameChange.name_ne flag flag hx hnew hk
      simp only [Table.insertEntry, if_neg hk, if_neg hk']
      exact .cons ⟨hnew, rfl, hu⟩ ih

/-- Something new is known of a name. -/
theorem modify (h : scope.Alike r flag scope') (hx : x ≠ r.new) {g : Variable → Variable}
    (hg : ∀ v v' : Variable, v.Alike v' → (g v).Alike (g v')) :
    Scope.Alike r flag (scope.modify x g) (scope'.modify (r.name flag x) g) := by
  obtain ⟨entries⟩ := scope
  obtain ⟨entries'⟩ := scope'
  simp only [Scope.Alike, Table.modify] at h ⊢
  induction h with
  | nil => exact .nil
  | @cons e e' rest rest' he _ ih =>
    obtain ⟨k, u⟩ := e
    obtain ⟨k', u'⟩ := e'
    obtain ⟨hnew, rfl, hu⟩ := he
    by_cases hk : x = k
    · subst hk
      simp only [List.map_cons, if_true]
      exact .cons ⟨hnew, rfl, hg _ _ hu⟩ ih
    · have hk' := NameChange.name_ne flag flag hx hnew hk
      simp only [List.map_cons, if_neg hk, if_neg hk']
      exact .cons ⟨hnew, rfl, hu⟩ ih

/-- If every name has been read, then so it is in the other scope. -/
theorem unused_eq_nil (h : scope.Alike r flag scope') (hunused : scope.unused = []) :
    scope'.unused = [] := by
  rw [Scope.unused_eq_nil_iff] at hunused ⊢
  obtain ⟨entries⟩ := scope
  obtain ⟨entries'⟩ := scope'
  simp only [Scope.Alike, Table.values] at h hunused ⊢
  induction h with
  | nil => simp
  | cons he _ ih =>
    obtain ⟨hused, hrest⟩ := List.forall_mem_cons.1 hunused
    refine List.forall_mem_cons.2 ⟨?_, ih hrest⟩
    rw [he.2.2.used]
    exact hused

end Scope.Alike

/-- How a name is written in the place that the scopes are around. -/
def NameChange.written (r : NameChange) (flags : List Bool) (scopes : List Scope) (x : String) :
    String := r.name (flagAt flags (Scopes.depth? scopes x)) x

theorem Scopes.depth?_cons (scope : Scope) (outer : List Scope) (x : String) :
    Scopes.depth? (scope :: outer) x =
      if scope.contains x then some 0 else (Scopes.depth? outer x).map (· + 1) := by
  simp [Scopes.depth?, List.findIdx?_cons]

theorem flagAt_succ (flag : Bool) (flags : List Bool) (d : Option Nat) :
    flagAt (flag :: flags) (d.map (· + 1)) = flagAt flags d := by
  cases d <;> rfl

namespace Scopes.Alike

variable {flags : List Bool} {scopes scopes' : List Scope} {x : String}

/-- A name is declared as far out as before. -/
theorem depth?_eq (h : Scopes.Alike r flags scopes scopes') (hx : x ≠ r.new) :
    Scopes.depth? scopes' (r.written flags scopes x) = Scopes.depth? scopes x := by
  unfold NameChange.written
  induction h with
  | nil => rfl
  | @cons flag flags scope scope' outer outer' hscope _ ih =>
    rw [Scopes.depth?_cons, Scopes.depth?_cons]
    cases hin : scope.contains x with
    | true =>
      have hin' : scope'.contains (r.name flag x) = true := by rw [hscope.contains_eq hx, hin]
      simp only [if_true, flagAt, List.getD_cons_zero, hin']
    | false =>
      simp only [Bool.false_eq_true, if_false, flagAt_succ, ih,
        hscope.contains_eq_false hx _ hin]

/-- A name is read. -/
theorem markUsed (h : Scopes.Alike r flags scopes scopes') (hx : x ≠ r.new) :
    Scopes.Alike r flags (Scopes.markUsed x scopes)
      (Scopes.markUsed (r.written flags scopes x) scopes') := by
  unfold NameChange.written
  induction h with
  | nil => exact .nil
  | @cons flag flags scope scope' outer outer' hscope houter ih =>
    rw [Scopes.depth?_cons]
    cases hin : scope.contains x with
    | true =>
      have hin' : scope'.contains (r.name flag x) = true := by rw [hscope.contains_eq hx, hin]
      simp only [Scopes.markUsed, if_true, flagAt, List.getD_cons_zero, hin, hin']
      exact .cons (hscope.modify hx fun _ _ hv => ⟨hv.initialized, rfl⟩) houter
    | false =>
      simp only [Scopes.markUsed, Bool.false_eq_true, if_false, flagAt_succ, hin,
        hscope.contains_eq_false hx _ hin]
      exact .cons hscope ih

/-- A name waits for its initializer as before. -/
theorem inInitializer (h : Scopes.Alike r flags scopes scopes') (hx : x ≠ r.new) :
    (Walk.inInitializer (r.written flags scopes x) scopes').value =
      (Walk.inInitializer x scopes).value := by
  unfold NameChange.written
  cases h with
  | nil => rfl
  | @cons flag flags scope scope' outer outer' hscope _ =>
    have hget := hscope.rel_get? hx
    simp only [Walk.inInitializer, List.head?_cons, Option.bind_some, Scopes.depth?_cons]
    cases hin : scope.contains x with
    | true =>
      simp only [if_true, flagAt, List.getD_cons_zero]
      generalize scope.get? x = o at hget
      generalize scope'.get? (r.name flag x) = o' at hget
      cases hget with
      | none => rfl
      | some hv => simp only [Option.any_some, hv.initialized]
    | false =>
      have hnone : scope.get? x = none := by simpa [Table.contains] using hin
      simp only [hnone, hscope.get?_eq_none hx _ hnone]

end Scopes.Alike

/-! ## Walks -/

/-- Nodes that correspond to each other are bound at the same depth. -/
def Binding.Alike (l : Likeness) (b b' : Binding) : Prop :=
  l.same b.id b'.id b.depth ∧ b'.depth = b.depth

/-- What two walks leave behind if they find the same. -/
structure Walked.Alike {α : Type} (l : Likeness) (flags : List Bool) (a a' : Walked α) : Prop where
  value : a'.value = a.value
  scopes : Scopes.Alike l.toNameChange flags a.scopes a'.scopes
  bindings : List.Forall₂ (Binding.Alike l) a.findings.bindings a'.findings.bindings
  faults : a.findings.faults = [] → a'.findings.faults = []

/-- From scopes that are alike, two walks find the same, if the number of scopes that a node goes
out is the depth at which the first walk binds it. -/
def Walk.Agrees {α : Type} (l : Likeness) (flags : List Bool) (w w' : Walk α) : Prop :=
  ∀ scopes scopes', Scopes.Alike l.toNameChange flags scopes scopes' →
    (∀ b ∈ (w scopes).findings.bindings, ∀ j d, l.same b.id j d → d = b.depth) →
      (w scopes).Alike l flags (w' scopes')

namespace Walk

variable {α β : Type} {l : Likeness} {flags : List Bool}

theorem agrees_pure (a : α) : Agrees l flags (pure a) (pure a) :=
  fun _ _ hscopes _ => ⟨rfl, hscopes, .nil, fun _ => rfl⟩

/-- One walk and then another. -/
theorem Agrees.bind {w w' : Walk α} {f f' : α → Walk β} (hw : w.Agrees l flags w')
    (hf : ∀ a, (f a).Agrees l flags (f' a)) : (w >>= f).Agrees l flags (w' >>= f') := by
  intro scopes scopes' hscopes hdepth
  obtain ⟨hdepth, hrest⟩ := List.forall_mem_append.1 hdepth
  have hfirst := hw scopes scopes' hscopes hdepth
  have hsecond := hf _ _ _ hfirst.scopes hrest
  rw [bind_apply, bind_apply, hfirst.value]
  refine ⟨hsecond.value, hsecond.scopes, List.rel_append hfirst.bindings hsecond.bindings, ?_⟩
  intro hfaults
  obtain ⟨h, h'⟩ := List.append_eq_nil_iff.1 hfaults
  exact List.append_eq_nil_iff.2 ⟨hfirst.faults h, hsecond.faults h'⟩

/-- If the first walk reports something, then the other one may report anything. -/
theorem agrees_report {t t' : Token} {fault fault' : ScopeFault} :
    Agrees l flags (report t fault) (report t' fault') :=
  fun _ _ hscopes _ => ⟨rfl, hscopes, .nil, fun h => absurd h (List.cons_ne_nil _ _)⟩

theorem agrees_report_pure {t : Token} {fault : ScopeFault} :
    Agrees l flags (report t fault) (pure ()) :=
  fun _ _ hscopes _ => ⟨rfl, hscopes, .nil, fun _ => rfl⟩

/-- A walk in a scope with a flag. -/
theorem Agrees.inScope {w w' : Walk Unit} (flag : Bool) (h : w.Agrees l (flag :: flags) w') :
    (inScope w).Agrees l flags (inScope w') := by
  intro scopes scopes' hscopes hdepth
  have hinner := h (∅ :: scopes) (∅ :: scopes') (.cons (.empty flag) hscopes) fun b hb =>
    hdepth b (List.mem_append_right _ (List.mem_append_left _ hb))
  rcases hwalked : w (∅ :: scopes) with ⟨value, left, findings⟩
  rcases hwalked' : w' (∅ :: scopes') with ⟨value', left', findings'⟩
  rw [hwalked, hwalked'] at hinner
  obtain ⟨-, hleft, hbindings, hfaults⟩ := hinner
  obtain - | ⟨hscope, houter⟩ := hleft
  simp only [Walk.inScope, bind_apply, openScope, hwalked, hwalked', closeScope]
  refine ⟨rfl, houter, by simpa using hbindings, fun hnil => ?_⟩
  simp only [Findings.faults_append, List.append_eq_nil_iff, List.map_eq_nil_iff] at hnil ⊢
  exact ⟨trivial, hfaults hnil.2.1, hscope.unused_eq_nil hnil.2.2⟩

/-- A name is declared where it belongs. -/
theorem agrees_declare {name' : Token} (hname : name.lexeme ≠ l.new)
    (hname' : name'.lexeme = l.name (flags.headD false) name.lexeme) :
    (declare name).Agrees l flags (declare name') := by
  intro scopes scopes' hscopes _
  cases hscopes with
  | nil => exact ⟨rfl, .nil, .nil, fun _ => rfl⟩
  | @cons flag flags scope scope' outer outer' hscope houter =>
    have hin := hscope.contains_eq hname
    rw [List.headD_cons] at hname'
    simp only [declare, hname', hin]
    split
    · exact ⟨rfl, .cons hscope houter, .nil, fun h => absurd h (List.cons_ne_nil _ _)⟩
    · exact ⟨rfl, .cons (hscope.insert hname ⟨rfl, rfl⟩) houter, .nil, fun _ => rfl⟩

theorem agrees_define {name' : Token} (hname : name.lexeme ≠ l.new)
    (hname' : name'.lexeme = l.name (flags.headD false) name.lexeme) :
    (define name).Agrees l flags (define name') := by
  intro scopes scopes' hscopes _
  cases hscopes with
  | nil => exact ⟨rfl, .nil, .nil, fun _ => rfl⟩
  | cons hscope houter =>
    rw [List.headD_cons] at hname'
    simp only [define, hname']
    exact ⟨rfl, .cons (hscope.modify hname fun _ _ hv => ⟨rfl, hv.used⟩) houter, .nil,
      fun _ => rfl⟩

/-- A name that the language provides, in a scope that is not flagged. -/
theorem agrees_provide {x : String} (hx : x ≠ l.new) (t t' : Token) :
    (provide x t).Agrees l (false :: flags) (provide x t') := by
  intro scopes scopes' hscopes _
  cases hscopes with
  | cons hscope houter =>
    have hknown : Variable.Alike ⟨t, true, true⟩ ⟨t', true, true⟩ := ⟨rfl, rfl⟩
    have hinsert := hscope.insert hx hknown
    rw [NameChange.name_false] at hinsert
    exact ⟨rfl, .cons hinsert houter, .nil, fun _ => rfl⟩

/-- Nodes that correspond to each other are bound at the same depth. -/
theorem agrees_bindNode {id id' : NodeId} {name' : Token} (hid : l.same id id' d)
    (hname : name.lexeme ≠ l.new) (hname' : name'.lexeme = l.name (flagAt flags d) name.lexeme) :
    (bindNode id name).Agrees l flags (bindNode id' name') := by
  intro scopes scopes' hscopes hdepth
  obtain rfl : d = Scopes.depth? scopes name.lexeme := hdepth _ (List.mem_singleton_self _) _ _ hid
  have hsame := hscopes.depth?_eq hname
  rw [NameChange.written, ← hname'] at hsame
  exact ⟨rfl, hscopes, .cons ⟨hid, hsame⟩ .nil, fun _ => rfl⟩

theorem agrees_bindRead {id id' : NodeId} {name' : Token} (hid : l.same id id' d)
    (hname : name.lexeme ≠ l.new) (hname' : name'.lexeme = l.name (flagAt flags d) name.lexeme) :
    (bindRead id name).Agrees l flags (bindRead id' name') := by
  intro scopes scopes' hscopes hdepth
  have hnode := agrees_bindNode hid hname hname' scopes scopes' hscopes fun b hb =>
    hdepth b (List.mem_append_left _ hb)
  obtain rfl : d = Scopes.depth? scopes name.lexeme :=
    hdepth _ (List.mem_append_left _ (List.mem_singleton_self _)) _ _ hid
  have hmarked := hscopes.markUsed hname
  rw [NameChange.written, ← hname'] at hmarked
  refine ⟨rfl, hmarked, ?_, fun _ => rfl⟩
  simpa [bindRead, bind_apply, markUsed] using hnode.bindings

end Walk

namespace Resolution

open Walk

variable {l : Likeness} {flags : List Bool}

/-- Nodes that correspond to each other read the same variable. -/
theorem agrees_read {id id' : NodeId} {name' : Token} (hid : l.same id id' d)
    (hname : name.lexeme ≠ l.new) (hname' : name'.lexeme = l.name (flagAt flags d) name.lexeme) :
    (read id name).Agrees l flags (read id' name') := by
  have hread := agrees_bindRead hid hname hname'
  intro scopes scopes' hscopes hdepth
  have hpending : (inInitializer name'.lexeme scopes').value =
      (inInitializer name.lexeme scopes).value := by
    have hmem : ⟨id, name.lexeme, Scopes.depth? scopes name.lexeme⟩ ∈
        (read id name scopes).findings.bindings := by
      rw [read, bind_apply]
      cases (inInitializer name.lexeme scopes).value <;> exact List.mem_cons_self ..
    obtain rfl : d = Scopes.depth? scopes name.lexeme := hdepth _ hmem _ _ hid
    rw [hname']
    exact hscopes.inInitializer hname
  rw [read, bind_apply] at hdepth ⊢
  rw [read, bind_apply, hpending]
  cases hvalue : (inInitializer name.lexeme scopes).value with
  | true =>
    rw [hvalue] at hdepth
    exact agrees_report.bind (fun _ => hread) scopes scopes' hscopes hdepth
  | false =>
    rw [hvalue] at hdepth
    exact hread scopes scopes' hscopes hdepth

/-- A keyword is no name that is replaced. -/
theorem agrees_keyword {id id' : NodeId} {keyword keyword' : Token} (hid : l.same id id' d)
    (hlexeme : keyword'.lexeme = keyword.lexeme) (hold : keyword.lexeme ≠ l.old)
    (hnew : keyword.lexeme ≠ l.new) :
    (bindRead id keyword).Agrees l flags (bindRead id' keyword') :=
  agrees_bindRead hid hnew (hlexeme.trans (NameChange.name_of_ne fun _ => hold).symm)

mutual

/-- Expressions that are alike are bound alike, if the new name is not in use. -/
theorem agrees_expr (ctx : Context) {e e' : Expr} (h : e.Alike l flags e')
    (hnew : ∀ x ∈ e.names, x ≠ l.new) : (expr ctx e).Agrees l flags (expr ctx e') := by
  cases h with
  | literal => exact agrees_pure ()
  | grouping h => exact (agrees_expr ctx h hnew :)
  | unary _ h => exact (agrees_expr ctx h hnew :)
  | binary _ ha hb =>
    obtain ⟨hna, hnb⟩ := List.forall_mem_append.1 hnew
    exact (agrees_expr ctx ha hna).bind fun _ => agrees_expr ctx hb hnb
  | logical _ ha hb =>
    obtain ⟨hna, hnb⟩ := List.forall_mem_append.1 hnew
    exact (agrees_expr ctx ha hna).bind fun _ => agrees_expr ctx hb hnb
  | conditional hc ha hb =>
    obtain ⟨hnc, hnab⟩ := List.forall_mem_append.1 hnew
    obtain ⟨hna, hnb⟩ := List.forall_mem_append.1 hnab
    exact (agrees_expr ctx hc hnc).bind fun _ => (agrees_expr ctx ha hna).bind fun _ =>
      agrees_expr ctx hb hnb
  | var hid _ hname => exact agrees_read hid (hnew _ (List.mem_singleton_self _)) hname.lexeme
  | assign hid _ hname h =>
    obtain ⟨hnname, hnvalue⟩ := List.forall_mem_cons.1 hnew
    exact (agrees_expr ctx h hnvalue).bind fun _ => agrees_bindNode hid hnname hname.lexeme
  | call _ hf hes =>
    obtain ⟨hnf, hnes⟩ := List.forall_mem_append.1 hnew
    exact (agrees_expr ctx hf hnf).bind fun _ => agrees_exprs ctx hes hnes
  | get _ h => exact (agrees_expr ctx h hnew :)
  | set _ he hv =>
    obtain ⟨hne, hnv⟩ := List.forall_mem_append.1 hnew
    exact (agrees_expr ctx hv hnv).bind fun _ => agrees_expr ctx he hne
  | @thisRef id id' d keyword keyword' hid hkeyword hsame =>
    have hnode : (bindRead id keyword).Agrees l flags (bindRead id' keyword') :=
      agrees_keyword hid hsame.lexeme (hkeyword ▸ l.old_ne.1.symm) (hkeyword ▸ l.new_ne.1.symm)
    rw [expr, expr, receiver, receiver]
    split
    · exact agrees_report
    · exact agrees_report
    · exact hnode
    · exact hnode
  | superRef hid hkeyword hsame _ =>
    rw [expr, expr, superclass, superclass]
    split
    · exact agrees_report
    · exact agrees_report
    · exact agrees_report
    · exact agrees_keyword hid hsame.lexeme (hkeyword ▸ l.old_ne.2.symm)
        (hkeyword ▸ l.new_ne.2.symm)
termination_by structural e

theorem agrees_exprs (ctx : Context) {es es' : List Expr} (h : Exprs.Alike l flags es es')
    (hnew : ∀ x ∈ Exprs.names es, x ≠ l.new) :
    (exprs ctx es).Agrees l flags (exprs ctx es') := by
  cases h with
  | nil => exact agrees_pure ()
  | cons he hes =>
    obtain ⟨hne, hnes⟩ := List.forall_mem_append.1 hnew
    exact (agrees_expr ctx he hne).bind fun _ => agrees_exprs ctx hes hnes
termination_by structural es

end

theorem agrees_optional (ctx : Context) {o o' : Option Expr} (h : Expr.OptionAlike l flags o o')
    (hnew : ∀ x ∈ Expr.optionNames o, x ≠ l.new) :
    (optional ctx o).Agrees l flags (optional ctx o') := by
  cases h with
  | none => exact agrees_pure ()
  | some h => exact agrees_expr ctx h hnew

theorem agrees_params {flag : Bool} {ps ps' : List Token}
    (h : List.Forall₂ (fun p p' => l.Avoids flag p ∧ p'.lexeme = l.name flag p.lexeme) ps ps')
    (hnew : ∀ p ∈ ps, p.lexeme ≠ l.new) :
    (params ps).Agrees l (flag :: flags) (params ps') := by
  induction h with
  | nil => exact agrees_pure ()
  | cons hp _ ih =>
    obtain ⟨hnp, hnps⟩ := List.forall_mem_cons.1 hnew
    exact (agrees_declare hnp hp.2).bind fun _ => (agrees_define hnp hp.2).bind fun _ => ih hnps

/-- A class that is not its own superclass is not so under another name. -/
theorem agrees_superclassClause (ctx : Context) {name' : Token} {o o' : Option Expr}
    (hname : name.lexeme ≠ l.new) (hsame : name'.lexeme = name.lexeme)
    (h : Expr.OptionAlike l flags o o') (hnew : ∀ x ∈ Expr.optionNames o, x ≠ l.new) :
    (superclassClause ctx name o).Agrees l flags (superclassClause ctx name' o') := by
  cases h with
  | none => exact agrees_pure ()
  | some h =>
    have hexpr := agrees_expr { ctx with cls := .subclass } h hnew
    cases h with
    | @var id id' d superName superName' hid havoids hwritten =>
      have hsuper := hnew _ (List.mem_singleton_self _)
      have hwritten : superName.lexeme ≠ name.lexeme → superName'.lexeme ≠ name.lexeme := by
        intro hne
        rw [hwritten.lexeme]
        exact l.name_false name.lexeme ▸
          NameChange.name_ne (flagAt flags d) false hsuper hname hne
      simp only [superclassClause, hsame]
      by_cases hself : superName.lexeme = name.lexeme
      · rw [if_pos (beq_iff_eq.2 hself)]
        split
        · exact agrees_report.bind fun _ => hexpr
        · exact agrees_report_pure.bind fun _ => hexpr
      · rw [if_neg (mt beq_iff_eq.1 hself), if_neg (mt beq_iff_eq.1 (hwritten hself))]
        exact hexpr
    | _ => exact hexpr

theorem agrees_returnRules (ctx : Context) (keyword keyword' : Token) {o o' : Option Expr}
    (h : o'.isSome = o.isSome) :
    (returnRules ctx keyword o).Agrees l flags (returnRules ctx keyword' o') := by
  have hvalue : Walk.Agrees l flags
      (if o.isSome && ctx.function = .initializer then
        report keyword .returnValueFromInitializer else pure ())
      (if o.isSome && ctx.function = .initializer then
        report keyword' .returnValueFromInitializer else pure ()) := by
    split
    · exact agrees_report
    · exact agrees_pure ()
  simp only [returnRules, h]
  split
  · exact agrees_report.bind fun _ => hvalue
  · exact hvalue

mutual

theorem agrees_stmt (ctx : Context) {flags : List Bool} {s s' : Stmt} (h : s.Alike l flags s')
    (hnew : ∀ x ∈ s.names, x ≠ l.new) : (stmt ctx s).Agrees l flags (stmt ctx s') := by
  cases h with
  | expression h => exact agrees_expr ctx h hnew
  | print h => exact agrees_expr ctx h hnew
  | varDecl _ hwritten h =>
    obtain ⟨hname, hvalue⟩ := List.forall_mem_cons.1 hnew
    exact (agrees_declare hname hwritten).bind fun _ => (agrees_optional ctx h hvalue).bind fun _ =>
      agrees_define hname hwritten
  | block flag h => exact (agrees_stmts ctx h hnew).inScope flag
  | ifThen hc ha =>
    obtain ⟨hnc, hna⟩ := List.forall_mem_append.1 hnew
    exact (agrees_expr ctx hc hnc).bind fun _ => agrees_stmt ctx ha hna
  | ifElse hc ha hb =>
    obtain ⟨hnc, hnab⟩ := List.forall_mem_append.1 hnew
    obtain ⟨hna, hnb⟩ := List.forall_mem_append.1 hnab
    exact (agrees_expr ctx hc hnc).bind fun _ => (agrees_stmt ctx ha hna).bind fun _ =>
      agrees_stmt ctx hb hnb
  | whileLoop hc hbody =>
    obtain ⟨hnc, hnbody⟩ := List.forall_mem_append.1 hnew
    exact (agrees_expr ctx hc hnc).bind fun _ => agrees_stmt ctx hbody hnbody
  | @funDecl _ decl decl' hkeeps h =>
    have hname := hnew _ decl.name_mem_names
    have hwritten : decl'.name.lexeme = l.name (flags.headD false) decl.name.lexeme := by
      rw [h.lexeme_name, hkeeps.name_eq]
    exact (agrees_declare hname hwritten).bind fun _ => (agrees_define hname hwritten).bind fun _ =>
      agrees_functionBody _ h hnew
  | returnWith h =>
    have hsome : ∀ {o o'}, Expr.OptionAlike l flags o o' → o'.isSome = o.isSome := by
      intro o o' h
      cases h <;> rfl
    exact (agrees_returnRules ctx _ _ (hsome h)).bind fun _ => agrees_optional ctx h hnew
  | @classDecl _ name name' superclass superclass' ms ms' ss ss' hkeeps hsame hsuper hms hss =>
    obtain ⟨hname, hnmembers⟩ := List.forall_mem_cons.1 hnew
    obtain ⟨hnsuper, hnmembers⟩ := List.forall_mem_append.1 hnmembers
    obtain ⟨hnms, hnss⟩ := List.forall_mem_append.1 hnmembers
    have hmembers : ∀ cls : ClassRole, Walk.Agrees l (ClassDecl.flags superclass flags)
        (do
          statics { ctx with cls := .static } ss
          withThis name (methods { ctx with cls := cls } ms))
        (do
          statics { ctx with cls := .static } ss'
          withThis name' (methods { ctx with cls := cls } ms')) := fun cls =>
      (agrees_statics _ hss hnss).bind fun _ =>
        Agrees.inScope false ((agrees_provide l.new_ne.1.symm name name').bind fun _ =>
          agrees_methods _ hms hnms)
    have hwritten := hsame.lexeme.trans hkeeps.name_eq.symm
    refine (agrees_declare hname hwritten).bind fun _ =>
      (agrees_superclassClause ctx hname hsame.lexeme hsuper hnsuper).bind fun _ =>
        (agrees_define hname hwritten).bind fun _ => ?_
    cases hsuper with
    | none => exact hmembers _
    | some _ =>
      exact Agrees.inScope false ((agrees_provide l.new_ne.2.symm _ _).bind fun _ => hmembers _)
termination_by structural s

theorem agrees_stmts (ctx : Context) {flags : List Bool} {ss ss' : List Stmt}
    (h : Stmts.Alike l flags ss ss') (hnew : ∀ x ∈ Stmts.names ss, x ≠ l.new) :
    (stmts ctx ss).Agrees l flags (stmts ctx ss') := by
  cases h with
  | nil => exact agrees_pure ()
  | cons hs hss =>
    obtain ⟨hns, hnss⟩ := List.forall_mem_append.1 hnew
    exact (agrees_stmt ctx hs hns).bind fun _ => agrees_stmts ctx hss hnss
termination_by structural ss

theorem agrees_functionBody (ctx : Context) {flags : List Bool} {f f' : FunctionDecl}
    (h : f.Alike l flags f') (hnew : ∀ x ∈ f.names, x ≠ l.new) :
    (functionBody ctx f).Agrees l flags (functionBody ctx f') := by
  cases h with
  | mk flag _ hparams hbody =>
    obtain ⟨-, hnew⟩ := List.forall_mem_cons.1 hnew
    obtain ⟨hnparams, hnbody⟩ := List.forall_mem_append.1 hnew
    exact Agrees.inScope flag
      ((agrees_params hparams fun p hp => hnparams _ (List.mem_map_of_mem hp)).bind fun _ =>
        agrees_stmts ctx hbody hnbody)
termination_by structural f

theorem agrees_methods (ctx : Context) {flags : List Bool} {fs fs' : List FunctionDecl}
    (h : FunctionDecls.Alike l flags fs fs') (hnew : ∀ x ∈ FunctionDecls.names fs, x ≠ l.new) :
    (methods ctx fs).Agrees l flags (methods ctx fs') := by
  cases h with
  | nil => exact agrees_pure ()
  | @cons _ f f' fs fs' hf hfs =>
    obtain ⟨hnf, hnfs⟩ := List.forall_mem_append.1 hnew
    have hrole : methodRole f' = methodRole f := by
      unfold methodRole FunctionDecl.isInitializer
      rw [hf.lexeme_name]
    rw [methods, methods, hrole]
    exact (agrees_functionBody _ hf hnf).bind fun _ => agrees_methods ctx hfs hnfs
termination_by structural fs

theorem agrees_statics (ctx : Context) {flags : List Bool} {fs fs' : List FunctionDecl}
    (h : FunctionDecls.Alike l flags fs fs') (hnew : ∀ x ∈ FunctionDecls.names fs, x ≠ l.new) :
    (statics ctx fs).Agrees l flags (statics ctx fs') := by
  cases h with
  | nil => exact agrees_pure ()
  | cons hf hfs =>
    obtain ⟨hnf, hnfs⟩ := List.forall_mem_append.1 hnew
    exact (agrees_functionBody _ hf hnf).bind fun _ => agrees_statics ctx hfs hnfs
termination_by structural fs

end

end Resolution

/-- The names of a program with another name for local variables are bound at the same depths, and
nothing is reported. -/
theorem resolve_apply (r : Renaming) {program : List Stmt} {n k : NodeId}
    (hnumbered : Stmts.Numbered n program k) (hwf : Stmts.WellFormed program)
    (hsilent : (resolve program).faults = []) (hnew : r.new ∉ Stmts.names program) :
    (resolve (r.apply program)).faults = [] ∧
      (resolve (r.apply program)).bindings.map (fun b => (b.id, b.depth)) =
        (resolve program).bindings.map fun b => (b.id, b.depth) := by
  have halike : Stmts.Alike (r.likeness fun i j d => j = i ∧ d = recorded program i) [] program
      (r.apply program) := r.alike_apply hwf hsilent hnew fun _ _ => ⟨rfl, rfl⟩
  have hwalk := Resolution.agrees_stmts {} halike (fun _ hx heq => hnew (heq ▸ hx)) [] [] .nil
  have hfound := hwalk ?_
  · refine ⟨hfound.faults hsilent, ?_⟩
    have hpairs : List.Forall₂ (fun b b' : Binding => (b'.id, b'.depth) = (b.id, b.depth))
        (resolve program).bindings (resolve (r.apply program)).bindings :=
      hfound.bindings.imp fun b b' hb => Prod.ext hb.1.1 hb.2
    rw [← List.forall₂_eq_eq_eq, List.forall₂_map_left_iff, List.forall₂_map_right_iff]
    exact hpairs.flip
  · rintro b hb _ d ⟨-, rfl⟩
    rw [← resolve, (resolve_visits hwf hsilent).1] at hb
    obtain ⟨v, hv, rfl⟩ := List.mem_map.1 hb
    exact recorded_of_mem_visits hnumbered hwf hsilent hv

end Lox
