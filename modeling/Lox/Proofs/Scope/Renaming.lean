import Lox.Proofs.Scope.Enforcement
import Lox.Proofs.Syntax.Likeness

/-!
# Other names for local variables

A variable or parameter that is declared in a scope may be given another name: in its declaration
and in the nodes that are bound to the scope by that name. The scopes in which this is done may be
chosen freely, since a scope declares a name once. Which nodes are bound to a scope is known from
how many scopes out each node goes.
-/

namespace Lox

variable {ss : List Stmt} {x : String}

/-! ## Programs with another name -/

/-- The names that statements declare by `var` in the scope they stand in. -/
def Stmts.variables (ss : List Stmt) : List String :=
  ss.filterMap fun
    | .varDecl name _ => some name.lexeme
    | _ => none

/-- The variables and parameters that a program declares in a scope. -/
def Region.variables : Region → List String
  | block body => Stmts.variables body
  | call decl => decl.params.map Token.lexeme ++ Stmts.variables decl.body
  | receiver _ | superclass _ => []

/-- A change of a name, and the scopes in which the variable or parameter of that name is to have
the other one. -/
structure Renaming extends NameChange where
  chosen : Region → Bool

/-- Whether the name is replaced in a scope: the scope is chosen and has such a variable. -/
def Renaming.flag (r : Renaming) (region : Region) : Bool :=
  r.chosen region && region.variables.contains r.old

variable (r : Renaming) (distance : NodeId → Option Nat)

mutual

/-- An expression with the other name in the nodes that are bound to flagged scopes. -/
def Expr.rename (flags : List Bool) : Expr → Expr
  | .literal value => .literal value
  | .grouping inner => .grouping (inner.rename flags)
  | .unary op operand => .unary op (operand.rename flags)
  | .binary left op right => .binary (left.rename flags) op (right.rename flags)
  | .logical left op right => .logical (left.rename flags) op (right.rename flags)
  | .conditional c a b => .conditional (c.rename flags) (a.rename flags) (b.rename flags)
  | .var id name => .var id (r.token (flagAt flags (distance id)) name)
  | .assign id name value =>
    .assign id (r.token (flagAt flags (distance id)) name) (value.rename flags)
  | .call callee paren arguments =>
    .call (callee.rename flags) paren (Exprs.rename flags arguments)
  | .get object name => .get (object.rename flags) name
  | .set object name value => .set (object.rename flags) name (value.rename flags)
  | .thisRef id keyword => .thisRef id keyword
  | .superRef id keyword method => .superRef id keyword method

def Exprs.rename (flags : List Bool) : List Expr → List Expr
  | [] => []
  | e :: es => e.rename flags :: Exprs.rename flags es

end

mutual

/-- A statement with the other name in flagged scopes. -/
def Stmt.rename (flags : List Bool) : Stmt → Stmt
  | .expression e => .expression (e.rename r distance flags)
  | .print e => .print (e.rename r distance flags)
  | .varDecl name value =>
    .varDecl (r.token (flags.headD false) name) (value.map (Expr.rename r distance flags))
  | .block body => .block (Stmts.rename (r.flag (.block body) :: flags) body)
  | .ifThen c a => .ifThen (c.rename r distance flags) (a.rename flags)
  | .ifElse c a b => .ifElse (c.rename r distance flags) (a.rename flags) (b.rename flags)
  | .whileLoop c body => .whileLoop (c.rename r distance flags) (body.rename flags)
  | .funDecl decl => .funDecl (decl.rename flags)
  | .returnWith keyword value => .returnWith keyword (value.map (Expr.rename r distance flags))
  | .classDecl ⟨name, superclass, methods, statics⟩ =>
    .classDecl ⟨name, superclass.map (Expr.rename r distance flags),
      FunctionDecls.rename (false :: ClassDecl.flags superclass flags) methods,
      FunctionDecls.rename (ClassDecl.flags superclass flags) statics⟩

def Stmts.rename (flags : List Bool) : List Stmt → List Stmt
  | [] => []
  | s :: ss => s.rename flags :: Stmts.rename flags ss

/-- A function with the other name in flagged scopes. Its parameters and its body share one. -/
def FunctionDecl.rename (flags : List Bool) : FunctionDecl → FunctionDecl
  | ⟨name, params, body⟩ =>
    ⟨name, params.map (r.token (r.flag (.call ⟨name, params, body⟩))),
      Stmts.rename (r.flag (.call ⟨name, params, body⟩) :: flags) body⟩

def FunctionDecls.rename (flags : List Bool) : List FunctionDecl → List FunctionDecl
  | [] => []
  | f :: fs => f.rename flags :: FunctionDecls.rename flags fs

end

/-- How many scopes out a node of a program goes, as it is recorded. -/
def recorded (program : List Stmt) (id : NodeId) : Option Nat :=
  ((∅ : Locals).noteAll (resolve program).bindings)[id]?

/-- A program with the other name in the declarations of the chosen scopes, and in the nodes that
are bound to them. At the top level there are no scopes. -/
def Renaming.apply (program : List Stmt) : List Stmt :=
  Stmts.rename r (recorded program) [] program

/-! ## Names of programs -/

mutual

/-- The variables that an expression names. -/
def Expr.names : Expr → List String
  | .literal _ | .thisRef _ _ | .superRef _ _ _ => []
  | .grouping e | .unary _ e | .get e _ => e.names
  | .binary a _ b | .logical a _ b | .set a _ b => a.names ++ b.names
  | .conditional c a b => c.names ++ (a.names ++ b.names)
  | .var _ name => [name.lexeme]
  | .assign _ name value => name.lexeme :: value.names
  | .call callee _ arguments => callee.names ++ Exprs.names arguments

def Exprs.names : List Expr → List String
  | [] => []
  | e :: es => e.names ++ Exprs.names es

end

/-- The variables that an expression names, if there is one. -/
def Expr.optionNames : Option Expr → List String
  | none => []
  | some e => e.names

mutual

/-- The names of variables, parameters, functions and classes in a statement. -/
def Stmt.names : Stmt → List String
  | .expression e | .print e => e.names
  | .varDecl name value => name.lexeme :: Expr.optionNames value
  | .block body => Stmts.names body
  | .ifThen c a => c.names ++ a.names
  | .ifElse c a b => c.names ++ (a.names ++ b.names)
  | .whileLoop c body => c.names ++ body.names
  | .funDecl decl => decl.names
  | .returnWith _ value => Expr.optionNames value
  | .classDecl ⟨name, superclass, methods, statics⟩ =>
    name.lexeme :: (Expr.optionNames superclass ++
      (FunctionDecls.names methods ++ FunctionDecls.names statics))

def Stmts.names : List Stmt → List String
  | [] => []
  | s :: ss => s.names ++ Stmts.names ss

def FunctionDecl.names : FunctionDecl → List String
  | ⟨name, params, body⟩ => name.lexeme :: (params.map Token.lexeme ++ Stmts.names body)

def FunctionDecls.names : List FunctionDecl → List String
  | [] => []
  | f :: fs => f.names ++ FunctionDecls.names fs

end

/-! ## A program with another name is like the program -/

/-- Functions and classes of a scope have other names than its variables. -/
def Stmts.Separate (x : String) (ss : List Stmt) : Prop :=
  ∀ s ∈ ss, ∀ t, s.declared? = some t → t.lexeme = x → ∃ value, s = .varDecl t value

theorem Stmts.mem_declared {s : Stmt} {t : Token} (hs : s ∈ ss) (ht : s.declared? = some t) :
    t.lexeme ∈ Stmts.declared ss :=
  List.mem_map_of_mem (List.mem_filterMap.2 ⟨s, hs, ht⟩)

theorem Stmts.mem_variables (h : x ∈ Stmts.variables ss) :
    ∃ t value, .varDecl t value ∈ ss ∧ t.lexeme = x := by
  obtain ⟨s, hs, hx⟩ := List.mem_filterMap.1 h
  cases s with
  | varDecl t value => exact ⟨t, value, hs, Option.some.inj hx⟩
  | _ => cases hx

/-- In a scope that declares no name twice, a name says which statement declares it. -/
theorem Stmts.eq_of_declared (h : (Stmts.declared ss).Nodup) {s s' : Stmt} (hs : s ∈ ss)
    (hs' : s' ∈ ss) {t t' : Token} (ht : s.declared? = some t) (ht' : s'.declared? = some t')
    (hname : t.lexeme = t'.lexeme) : s = s' := by
  induction ss with
  | nil => cases hs
  | cons u ss ih =>
    have hnot : ∀ w, u.declared? = some w → w.lexeme ∉ Stmts.declared ss := by
      intro w hw
      simp only [Stmts.declared, List.filterMap_cons, hw] at h
      exact (List.nodup_cons.1 h).1
    have hrest : (Stmts.declared ss).Nodup := by
      refine h.sublist ?_
      exact ((List.sublist_cons_self u ss).filterMap _).map _
    rcases List.mem_cons.1 hs with rfl | hmem
    · rcases List.mem_cons.1 hs' with rfl | hmem'
      · rfl
      · exact absurd (hname ▸ Stmts.mem_declared hmem' ht') (hnot t ht)
    · rcases List.mem_cons.1 hs' with rfl | hmem'
      · exact absurd (hname ▸ Stmts.mem_declared hmem ht) (hnot t' ht')
      · exact ih hrest hmem hmem'

theorem Stmts.separate_of_mem (h : (Stmts.declared ss).Nodup) (hx : x ∈ Stmts.variables ss) :
    Stmts.Separate x ss := by
  intro s hs t ht hname
  obtain ⟨u, value, hu, rfl⟩ := Stmts.mem_variables hx
  obtain rfl := Stmts.eq_of_declared h hs hu ht rfl hname
  obtain rfl := Option.some.inj ht
  exact ⟨value, rfl⟩

theorem Stmts.separate_of_not_mem (hx : x ∉ Stmts.declared ss) : Stmts.Separate x ss := by
  intro s hs t ht hname
  exact absurd (hname ▸ Stmts.mem_declared hs ht) hx

/-- A branch declares nothing in the scope it stands in. -/
theorem Stmts.separate_of_declared_none {s : Stmt} (h : s.declared? = none) :
    Stmts.Separate x [s] := by
  intro u hu t ht
  obtain rfl := List.mem_singleton.1 hu
  simp [h] at ht

theorem FunctionDecl.name_mem_names (f : FunctionDecl) : f.name.lexeme ∈ f.names := by
  obtain ⟨name, params, body⟩ := f
  exact List.mem_cons_self ..

variable {r distance}

/-- The statements of a block in which the name is replaced. -/
theorem Renaming.separate_block {body : List Stmt} (h : (Region.block body).declares.Nodup)
    (hflag : r.flag (.block body) = true) : Stmts.Separate r.old body := by
  rw [Renaming.flag, Bool.and_eq_true, List.contains_iff_mem] at hflag
  exact Stmts.separate_of_mem h hflag.2

/-- The statements of a function in whose scope the name is replaced. -/
theorem Renaming.separate_call {decl : FunctionDecl} (h : (Region.call decl).declares.Nodup)
    (hflag : r.flag (.call decl) = true) : Stmts.Separate r.old decl.body := by
  rw [Renaming.flag, Bool.and_eq_true, List.contains_iff_mem] at hflag
  rw [Region.declares_call] at h
  obtain ⟨-, hbody, hdisjoint⟩ := List.nodup_append.1 h
  rcases List.mem_append.1 hflag.2 with hparam | hvar
  · exact Stmts.separate_of_not_mem fun hx => hdisjoint _ hparam _ hx rfl
  · exact Stmts.separate_of_mem hbody hvar

/-- The nodes of the renamed program correspond to those of the program, and stay on their lines. -/
def Renaming.likeness (r : Renaming) (same : NodeId → NodeId → Option Nat → Prop) : Likeness :=
  { r.toNameChange with same := same, line := Eq }

variable {same : NodeId → NodeId → Option Nat → Prop} {cls : ClassRole} {layers : List Layer}
  {flags : List Bool}

mutual

theorem Expr.alike_rename (e : Expr) (he : e.WellFormed) (hnew : ∀ x ∈ e.names, x ≠ r.new)
    (h : ∀ v ∈ e.visits cls layers, same v.id v.id (distance v.id)) :
    e.Alike (r.likeness same) flags (e.rename r distance flags) := by
  cases e with
  | literal => exact .literal
  | grouping inner => exact .grouping (inner.alike_rename he hnew h)
  | unary op operand => exact .unary ⟨rfl, rfl, rfl⟩ (operand.alike_rename he.2 hnew h)
  | binary left op right =>
    obtain ⟨hl, hr⟩ := List.forall_mem_append.1 h
    obtain ⟨hnl, hnr⟩ := List.forall_mem_append.1 hnew
    exact .binary ⟨rfl, rfl, rfl⟩ (left.alike_rename he.2.1 hnl hl)
      (right.alike_rename he.2.2 hnr hr)
  | logical left op right =>
    obtain ⟨hl, hr⟩ := List.forall_mem_append.1 h
    obtain ⟨hnl, hnr⟩ := List.forall_mem_append.1 hnew
    exact .logical ⟨rfl, rfl, rfl⟩ (left.alike_rename he.1 hnl hl) (right.alike_rename he.2 hnr hr)
  | conditional c a b =>
    obtain ⟨hc, hab⟩ := List.forall_mem_append.1 h
    obtain ⟨ha, hb⟩ := List.forall_mem_append.1 hab
    obtain ⟨hnc, hnab⟩ := List.forall_mem_append.1 hnew
    obtain ⟨hna, hnb⟩ := List.forall_mem_append.1 hnab
    exact .conditional (c.alike_rename he.1 hnc hc) (a.alike_rename he.2.1 hna ha)
      (b.alike_rename he.2.2 hnb hb)
  | var id name =>
    have hid := h _ (List.mem_singleton_self _)
    exact .var (r := r.likeness same) hid (fun _ => hnew _ (List.mem_singleton_self _))
      ⟨rfl, rfl, rfl⟩
  | assign id name value =>
    obtain ⟨hvalue, hid⟩ := List.forall_mem_append.1 h
    obtain ⟨hnname, hnvalue⟩ := List.forall_mem_cons.1 hnew
    exact .assign (r := r.likeness same) (hid _ (List.mem_singleton_self _))
      (fun _ => hnname) ⟨rfl, rfl, rfl⟩ (value.alike_rename he.2 hnvalue hvalue)
  | call callee paren arguments =>
    obtain ⟨hcallee, harguments⟩ := List.forall_mem_append.1 h
    obtain ⟨hncallee, hnarguments⟩ := List.forall_mem_append.1 hnew
    exact .call ⟨rfl, rfl, rfl⟩ (callee.alike_rename he.1 hncallee hcallee)
      (Exprs.alike_rename arguments he.2 hnarguments harguments)
  | get object name => exact .get ⟨rfl, rfl, rfl⟩ (object.alike_rename he hnew h)
  | set object name value =>
    obtain ⟨hvalue, hobject⟩ := List.forall_mem_append.1 h
    obtain ⟨hnobject, hnvalue⟩ := List.forall_mem_append.1 hnew
    exact .set ⟨rfl, rfl, rfl⟩ (object.alike_rename he.1 hnobject hobject)
      (value.alike_rename he.2 hnvalue hvalue)
  | thisRef id keyword => exact .thisRef (h _ (List.mem_singleton_self _)) he ⟨rfl, rfl, rfl⟩
  | superRef id keyword method =>
    exact .superRef (h _ (List.mem_singleton_self _)) he ⟨rfl, rfl, rfl⟩ ⟨rfl, rfl, rfl⟩

theorem Exprs.alike_rename (es : List Expr) (hes : Exprs.WellFormed es)
    (hnew : ∀ x ∈ Exprs.names es, x ≠ r.new)
    (h : ∀ v ∈ Exprs.visits cls layers es, same v.id v.id (distance v.id)) :
    Exprs.Alike (r.likeness same) flags es (Exprs.rename r distance flags es) := by
  cases es with
  | nil => exact .nil
  | cons e es =>
    obtain ⟨he, hrest⟩ := List.forall_mem_append.1 h
    obtain ⟨hne, hnrest⟩ := List.forall_mem_append.1 hnew
    exact .cons (e.alike_rename hes.1 hne he) (Exprs.alike_rename es hes.2 hnrest hrest)

end

theorem Expr.optionAlike_rename (o : Option Expr) (ho : Expr.OptionWellFormed o)
    (hnew : ∀ x ∈ Expr.optionNames o, x ≠ r.new)
    (h : ∀ v ∈ Expr.optionVisits cls layers o, same v.id v.id (distance v.id)) :
    Expr.OptionAlike (r.likeness same) flags o (o.map (Expr.rename r distance flags)) := by
  cases o with
  | none => exact .none
  | some e => exact .some (e.alike_rename ho hnew h)

mutual

/-- Renaming gives a tree that is alike, if the new name is not in use. -/
theorem Stmt.alike_rename {path : Path} {flags : List Bool} {cls : ClassRole} {layers : List Layer}
    (s : Stmt) (hs : s.WellFormed) (hparts : ∀ p ∈ s.parts path, p.1.Permits p.2)
    (hseparate : flags.headD false = true → Stmts.Separate r.old [s])
    (hnew : ∀ x ∈ s.names, x ≠ r.new)
    (h : ∀ v ∈ s.visits cls layers, same v.id v.id (distance v.id)) :
    s.Alike (r.likeness same) flags (s.rename r distance flags) := by
  cases s with
  | expression e => exact .expression (e.alike_rename hs hnew h)
  | print e => exact .print (e.alike_rename hs hnew h)
  | varDecl name value =>
    obtain ⟨hnname, hnvalue⟩ := List.forall_mem_cons.1 hnew
    exact .varDecl (r := r.likeness same) (fun _ => hnname) rfl
      (Expr.optionAlike_rename value hs.2 hnvalue h)
  | block body =>
    obtain ⟨hpermits, hparts⟩ := List.forall_mem_cons.1 hparts
    have hnodup := hpermits.distinct _ (List.mem_singleton_self _)
    exact .block _ (Stmts.alike_rename body hs hparts (Renaming.separate_block hnodup) hnew h)
  | ifThen c a =>
    obtain ⟨-, hparts⟩ := List.forall_mem_cons.1 hparts
    obtain ⟨hc, ha⟩ := List.forall_mem_append.1 h
    obtain ⟨hnc, hna⟩ := List.forall_mem_append.1 hnew
    exact .ifThen (c.alike_rename hs.1 hnc hc)
      (a.alike_rename hs.2.2 hparts (fun _ => Stmts.separate_of_declared_none hs.2.1) hna ha)
  | ifElse c a b =>
    obtain ⟨-, hparts⟩ := List.forall_mem_cons.1 hparts
    obtain ⟨hpa, hpb⟩ := List.forall_mem_append.1 hparts
    obtain ⟨hc, hab⟩ := List.forall_mem_append.1 h
    obtain ⟨ha, hb⟩ := List.forall_mem_append.1 hab
    obtain ⟨hnc, hnab⟩ := List.forall_mem_append.1 hnew
    obtain ⟨hna, hnb⟩ := List.forall_mem_append.1 hnab
    obtain ⟨hwc, ⟨hda, hwa⟩, hdb, hwb⟩ := hs
    exact .ifElse (c.alike_rename hwc hnc hc)
      (a.alike_rename hwa hpa (fun _ => Stmts.separate_of_declared_none hda) hna ha)
      (b.alike_rename hwb hpb (fun _ => Stmts.separate_of_declared_none hdb) hnb hb)
  | whileLoop c body =>
    obtain ⟨-, hparts⟩ := List.forall_mem_cons.1 hparts
    obtain ⟨hc, hbody⟩ := List.forall_mem_append.1 h
    obtain ⟨hnc, hnbody⟩ := List.forall_mem_append.1 hnew
    exact .whileLoop (c.alike_rename hs.1 hnc hc)
      (body.alike_rename hs.2.2 hparts (fun _ => Stmts.separate_of_declared_none hs.2.1) hnbody
        hbody)
  | funDecl decl =>
    obtain ⟨hpermits, hparts⟩ := List.forall_mem_cons.1 hparts
    have hnodup := hpermits.distinct _ (List.mem_singleton_self _)
    refine .funDecl (r := r.likeness same) (fun hflag => ⟨fun hold => ?_, ?_⟩)
      (decl.alike_rename hs hnodup hparts hnew h)
    · obtain ⟨value, hvalue⟩ := hseparate hflag _ (List.mem_singleton_self _) _ rfl hold
      cases hvalue
    · exact hnew _ decl.name_mem_names
  | returnWith keyword value => exact .returnWith (Expr.optionAlike_rename value hs hnew h)
  | classDecl decl =>
    obtain ⟨name, superclass, methods, statics⟩ := decl
    obtain ⟨hpermits, hparts⟩ := List.forall_mem_cons.1 hparts
    obtain ⟨hps, hpm⟩ := List.forall_mem_append.1 hparts
    obtain ⟨hnname, hnmembers⟩ := List.forall_mem_cons.1 hnew
    obtain ⟨hnsuper, hnmembers⟩ := List.forall_mem_append.1 hnmembers
    obtain ⟨hnmethods, hnstatics⟩ := List.forall_mem_append.1 hnmembers
    obtain ⟨hsuper, hmembers⟩ := List.forall_mem_append.1 h
    obtain ⟨hss, hms⟩ := List.forall_mem_append.1 hmembers
    obtain ⟨-, hwsuper, hwmethods, hwstatics⟩ := hs
    have hnodup : ∀ f ∈ statics ++ methods, (Region.call f).declares.Nodup := fun f hf =>
      hpermits.distinct _ (List.mem_map_of_mem hf)
    obtain ⟨hds, hdm⟩ := List.forall_mem_append.1 hnodup
    refine .classDecl (r := r.likeness same) (fun hflag => ⟨fun hold => ?_, hnname⟩) ⟨rfl, rfl, rfl⟩
      (Expr.optionAlike_rename superclass hwsuper.option hnsuper hsuper)
      (FunctionDecls.alike_rename methods hwmethods hdm hpm hnmethods
        fun f hf => ⟨_, _, fun v hv => hms v (FunctionDecls.mem_methodVisits.2 ⟨f, hf, hv⟩)⟩)
      (FunctionDecls.alike_rename statics hwstatics hds hps hnstatics
        fun f hf => ⟨_, _, fun v hv => hss v (FunctionDecls.mem_staticVisits.2 ⟨f, hf, hv⟩)⟩)
    obtain ⟨value, hvalue⟩ := hseparate hflag _ (List.mem_singleton_self _) _ rfl hold
    cases hvalue

/-- A program with another name is like the program. -/
theorem Stmts.alike_rename {path : Path} {flags : List Bool} {cls : ClassRole}
    {layers : List Layer} (ss : List Stmt) (hss : Stmts.WellFormed ss)
    (hparts : ∀ p ∈ Stmts.parts path ss, p.1.Permits p.2)
    (hseparate : flags.headD false = true → Stmts.Separate r.old ss)
    (hnew : ∀ x ∈ Stmts.names ss, x ≠ r.new)
    (h : ∀ v ∈ Stmts.visits cls layers ss, same v.id v.id (distance v.id)) :
    Stmts.Alike (r.likeness same) flags ss (Stmts.rename r distance flags ss) := by
  cases ss with
  | nil => exact .nil
  | cons s ss =>
    obtain ⟨hps, hprest⟩ := List.forall_mem_append.1 hparts
    obtain ⟨hns, hnrest⟩ := List.forall_mem_append.1 hnew
    obtain ⟨hs, hrest⟩ := List.forall_mem_append.1 h
    refine .cons (s.alike_rename hss.1 hps (fun hflag => ?_) hns hs)
      (Stmts.alike_rename ss hss.2 hprest (fun hflag => ?_) hnrest hrest)
    · exact List.forall_mem_singleton.2 (List.forall_mem_cons.1 (hseparate hflag)).1
    · exact (List.forall_mem_cons.1 (hseparate hflag)).2

theorem FunctionDecl.alike_rename {path : Path} {flags : List Bool} {cls : ClassRole}
    {layers : List Layer} (f : FunctionDecl) (hf : f.WellFormed)
    (hnodup : (Region.call f).declares.Nodup) (hparts : ∀ p ∈ f.parts path, p.1.Permits p.2)
    (hnew : ∀ x ∈ f.names, x ≠ r.new)
    (h : ∀ v ∈ f.visits cls layers, same v.id v.id (distance v.id)) :
    f.Alike (r.likeness same) flags (f.rename r distance flags) := by
  obtain ⟨name, params, body⟩ := f
  obtain ⟨-, hnew⟩ := List.forall_mem_cons.1 hnew
  obtain ⟨hnparams, hnbody⟩ := List.forall_mem_append.1 hnew
  have hparams : ∀ p ∈ params, (r.likeness same).Avoids (r.flag (.call ⟨name, params, body⟩)) p :=
    fun p hp _ => hnparams _ (List.mem_map_of_mem hp)
  refine .mk (r := r.likeness same) _ rfl (List.forall₂_map_right_iff.2
    (List.forall₂_same.2 fun p hp => ⟨hparams p hp, rfl⟩)) ?_
  exact Stmts.alike_rename body hf.2.2 hparts (Renaming.separate_call hnodup) hnbody h

theorem FunctionDecls.alike_rename {place : FunctionDecl → Path} {flags : List Bool}
    (fs : List FunctionDecl) (hfs : FunctionDecls.WellFormed fs)
    (hnodup : ∀ f ∈ fs, (Region.call f).declares.Nodup)
    (hparts : ∀ p ∈ FunctionDecls.parts place fs, p.1.Permits p.2)
    (hnew : ∀ x ∈ FunctionDecls.names fs, x ≠ r.new)
    (h : ∀ f ∈ fs, ∃ cls layers, ∀ v ∈ f.visits cls layers, same v.id v.id (distance v.id)) :
    FunctionDecls.Alike (r.likeness same) flags fs (FunctionDecls.rename r distance flags fs) := by
  cases fs with
  | nil => exact .nil
  | cons f fs =>
    obtain ⟨hdf, hdrest⟩ := List.forall_mem_cons.1 hnodup
    obtain ⟨hpf, hprest⟩ := List.forall_mem_append.1 hparts
    obtain ⟨hnf, hnrest⟩ := List.forall_mem_append.1 hnew
    obtain ⟨⟨_, _, hf⟩, hrest⟩ := List.forall_mem_cons.1 h
    exact .cons (f.alike_rename hfs.1 hdf hpf hnf hf)
      (FunctionDecls.alike_rename fs hfs.2 hdrest hprest hnrest hrest)

end

/-- What is recorded for a node is where its name is declared. -/
theorem recorded_of_mem_visits {program : List Stmt} {n k : NodeId}
    (hnumbered : Stmts.Numbered n program k) (hwf : Stmts.WellFormed program)
    (hsilent : (resolve program).faults = []) {v : Visit}
    (hv : v ∈ Stmts.visits .outside [] program) :
    recorded program v.id = Layers.depth? v.layers v.name := by
  rw [recorded, (resolve_visits hwf hsilent).1]
  exact (hnumbered.ranged .outside []).getElem?_noteAll
    (fun _ _ => Std.TreeMap.getElem?_emptyc) v hv

/-- A program whose names are bound is like the program with another name. -/
theorem Renaming.alike_apply (r : Renaming) {program : List Stmt} (hwf : Stmts.WellFormed program)
    (hsilent : (resolve program).faults = []) (hnew : r.new ∉ Stmts.names program)
    (h : ∀ v ∈ Stmts.visits .outside [] program, same v.id v.id (recorded program v.id)) :
    Stmts.Alike (r.likeness same) [] program (r.apply program) :=
  Stmts.alike_rename program hwf ((silent_resolve_iff hwf).1 hsilent) nofun
    (fun _ hx heq => hnew (heq ▸ hx)) h

end Lox
