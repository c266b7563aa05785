import Lox.Proofs.Scope.Visits
import Mathlib.Tactic.MkIffOfInductiveProp

/-!
# The rules of scope

What a program has to keep to for its names to be bound. A rule is about a statement and what it
stands in: the blocks and functions around it, and whether a function is a method. The scopes that
a statement opens are those of a block and of functions, which share a scope with their
parameters. What happens in a scope may be said without looking at what is around it, since a name
that is declared in the scope is never bound to one further out.
-/

namespace Lox

variable {layers : List Layer}

/-! ## Parts of programs -/

/-- What a part of a program may stand in. -/
inductive Enclosure where
  | block
  | function (decl : FunctionDecl)
  | method (cls : ClassDecl) (decl : FunctionDecl)
  | staticMethod (cls : ClassDecl) (decl : FunctionDecl)

/-- What a part of a program stands in, from the inside to the outside. -/
abbrev Path := List Enclosure

namespace Path

/-- The nearest function around, be it a method or not. -/
def function? : Path → Option Enclosure
  | [] => none
  | .block :: path => function? path
  | e :: _ => some e

/-- The member of the innermost class body around. -/
def member? : Path → Option Enclosure
  | [] => none
  | .block :: path | .function _ :: path => member? path
  | e :: _ => some e

end Path

mutual

/-- A statement and those inside it, each with what it stands in. -/
def Stmt.parts (path : Path) : Stmt → List (Path × Stmt)
  | .expression e => [(path, .expression e)]
  | .print e => [(path, .print e)]
  | .varDecl name value => [(path, .varDecl name value)]
  | .block body => (path, .block body) :: Stmts.parts (.block :: path) body
  | .ifThen c a => (path, .ifThen c a) :: a.parts path
  | .ifElse c a b => (path, .ifElse c a b) :: (a.parts path ++ b.parts path)
  | .whileLoop c body => (path, .whileLoop c body) :: body.parts path
  | .funDecl decl => (path, .funDecl decl) :: decl.parts (.function decl :: path)
  | .returnWith keyword value => [(path, .returnWith keyword value)]
  | .classDecl ⟨name, superclass, methods, statics⟩ =>
    let decl : ClassDecl := ⟨name, superclass, methods, statics⟩
    (path, .classDecl decl) ::
      (FunctionDecls.parts (fun f => .staticMethod decl f :: path) statics ++
        FunctionDecls.parts (fun f => .method decl f :: path) methods)

def Stmts.parts (path : Path) : List Stmt → List (Path × Stmt)
  | [] => []
  | s :: ss => s.parts path ++ Stmts.parts path ss

def FunctionDecl.parts (path : Path) : FunctionDecl → List (Path × Stmt)
  | ⟨_, _, body⟩ => Stmts.parts path body

/-- The statements inside functions, each of which stands where `place` says. -/
def FunctionDecls.parts (place : FunctionDecl → Path) : List FunctionDecl → List (Path × Stmt)
  | [] => []
  | f :: fs => f.parts (place f) ++ FunctionDecls.parts place fs

end

/-- The statements inside functions are those inside each of them. -/
theorem FunctionDecls.forall_parts {place : FunctionDecl → Path} {fs : List FunctionDecl}
    {P : Path × Stmt → Prop} :
    (∀ p ∈ FunctionDecls.parts place fs, P p) ↔ ∀ f ∈ fs, ∀ p ∈ f.parts (place f), P p := by
  induction fs with
  | nil => simp [FunctionDecls.parts]
  | cons f fs ih => simp only [FunctionDecls.parts, List.forall_mem_append, ih, List.forall_mem_cons]

mutual

/-- An expression and those inside it. -/
def Expr.nodes : Expr → List Expr
  | .literal value => [.literal value]
  | .grouping inner => .grouping inner :: inner.nodes
  | .unary op operand => .unary op operand :: operand.nodes
  | .binary left op right => .binary left op right :: (left.nodes ++ right.nodes)
  | .logical left op right => .logical left op right :: (left.nodes ++ right.nodes)
  | .conditional c a b => .conditional c a b :: (c.nodes ++ (a.nodes ++ b.nodes))
  | .var id name => [.var id name]
  | .assign id name value => .assign id name value :: value.nodes
  | .call callee paren arguments =>
    .call callee paren arguments :: (callee.nodes ++ Exprs.nodes arguments)
  | .get object name => .get object name :: object.nodes
  | .set object name value => .set object name value :: (object.nodes ++ value.nodes)
  | .thisRef id keyword => [.thisRef id keyword]
  | .superRef id keyword method => [.superRef id keyword method]

def Exprs.nodes : List Expr → List Expr
  | [] => []
  | e :: es => e.nodes ++ Exprs.nodes es

end

/-- The expressions of a statement, apart from those of statements inside it. -/
def Stmt.expressions : Stmt → List Expr
  | .expression e | .print e | .ifThen e _ | .ifElse e _ _ | .whileLoop e _ => [e]
  | .varDecl _ value | .returnWith _ value => value.toList
  | .block _ | .funDecl _ => []
  | .classDecl decl => decl.superclass.toList

/-! ## Scopes -/

/-- The names that statements declare in the scope they stand in. -/
def Stmts.declared (ss : List Stmt) : List String :=
  (ss.filterMap Stmt.declared?).map Token.lexeme

/-- The scopes that a statement opens, apart from those of statements inside it. -/
def Stmt.regions : Stmt → List Region
  | .block body => [.block body]
  | .funDecl decl => [.call decl]
  | .classDecl decl => (decl.statics ++ decl.methods).map .call
  | _ => []

namespace Region

/-- The declarations in a scope, in the order of the text. -/
def declarations : Region → List Token
  | block body => body.filterMap Stmt.declared?
  | call decl => decl.params ++ decl.body.filterMap Stmt.declared?
  | receiver _ | superclass _ => []

def declares (region : Region) : List String := region.declarations.map Token.lexeme

theorem declares_call (decl : FunctionDecl) :
    (call decl).declares = decl.params.map Token.lexeme ++ Stmts.declared decl.body :=
  List.map_append

theorem nodup_params {decl : FunctionDecl} (h : (call decl).declares.Nodup) :
    (decl.params.map Token.lexeme).Nodup :=
  (List.nodup_append.1 (declares_call decl ▸ h)).1

/-- The nodes in a scope, with the scopes around them up to this one. -/
def visits : Region → List Visit
  | block body => Stmts.visits .outside [.block body] body
  | call decl => decl.visits .outside []
  | receiver _ | superclass _ => []

/-- A node in a scope reads a name that is declared by the scope itself, the outermost one of those
that are looked at. A name is bound to the innermost scope that declares it before the node. -/
def Reads (region : Region) (x : String) : Prop :=
  ∃ v ∈ region.visits, v.use = .read ∧ v.name = x ∧
    Layers.depth? v.layers x = some (v.layers.length - 1)

/-- No name is declared twice in a scope, and each one is read. -/
def Proper (region : Region) : Prop :=
  region.declares.Nodup ∧ ∀ x ∈ region.declares, region.Reads x

end Region

/-! ## Rules -/

namespace Path

/-- A `return` has a function around it, and if it has a value then the nearest one is not the
initializer of a class. -/
def PermitsReturn (path : Path) (value : Option Expr) : Prop :=
  ∃ f, path.function? = some f ∧
    (value.isSome → ∀ cls m, f = .method cls m → m.name.lexeme ≠ initializerName)

/-- The receiver is named in methods only, and the superclass only in those of classes that have
one. -/
def PermitsNode (path : Path) : Expr → Prop
  | .thisRef _ _ => ∃ cls m, path.member? = some (.method cls m)
  | .superRef _ _ _ => ∃ cls m, path.member? = some (.method cls m) ∧ cls.superclass.isSome
  | _ => True

/-- A statement keeps to the rules of scope where it stands. -/
@[mk_iff]
structure Permits (path : Path) (s : Stmt) : Prop where
  /-- A `return` is in a function and returns no value from an initializer. -/
  returns : ∀ keyword value, s = .returnWith keyword value → path.PermitsReturn value
  /-- Receivers and superclasses are named where there are some. -/
  nodes : ∀ e ∈ s.expressions, ∀ n ∈ e.nodes, path.PermitsNode n
  /-- No class is its own superclass. -/
  ancestry : ∀ decl id name, s = .classDecl decl → decl.superclass = some (.var id name) →
    name.lexeme ≠ decl.name.lexeme
  /-- The initializer of a variable that is not global does not read the variable. -/
  initializers : path ≠ [] → ∀ name value, s = .varDecl name (some value) →
    ∀ id other, .var id other ∈ value.nodes → other.lexeme ≠ name.lexeme
  /-- No scope declares a name twice. -/
  distinct : ∀ region ∈ s.regions, region.declares.Nodup
  /-- Each name that a scope declares is read. -/
  read : ∀ region ∈ s.regions, ∀ x ∈ region.declares, region.Reads x

end Path

/-! ## Scopes that are looked at by themselves -/

namespace Layers

theorem declare_append (h : layers ≠ []) (name : String) (outer : List Layer) :
    declare name (layers ++ outer) = declare name layers ++ outer := by
  cases layers with
  | nil => exact absurd rfl h
  | cons l rest => rfl

theorem await_append (h : layers ≠ []) (name : String) (outer : List Layer) :
    await name (layers ++ outer) = await name layers ++ outer := by
  cases layers with
  | nil => exact absurd rfl h
  | cons l rest => rfl

theorem after_append (h : layers ≠ []) (s : Stmt) (outer : List Layer) :
    after (layers ++ outer) s = after layers s ++ outer := by
  unfold after
  split
  · exact declare_append h _ outer
  · rfl

theorem declare_ne_nil (h : layers ≠ []) (name : String) : declare name layers ≠ [] := by
  cases layers with
  | nil => exact absurd rfl h
  | cons l rest => exact List.cons_ne_nil _ _

theorem after_ne_nil (h : layers ≠ []) (s : Stmt) : after layers s ≠ [] := by
  unfold after
  split
  · exact declare_ne_nil h _
  · exact h

theorem depth?_append (layers outer : List Layer) (name : String) :
    depth? (layers ++ outer) name =
      (depth? layers name).or ((depth? outer name).map (· + layers.length)) := by
  simp [depth?, List.findIdx?_append]

/-- A name is bound to the scope that has `j` scopes around it. -/
def BoundAt (layers : List Layer) (name : String) (j : Nat) : Prop :=
  ∃ d, depth? layers name = some d ∧ layers.length = j + d + 1

theorem boundAt_nil (name : String) (j : Nat) : ¬ BoundAt [] name j := by simp [BoundAt, depth?_nil]

theorem boundAt_cons (l : Layer) (outer : List Layer) (name : String) (j : Nat) :
    BoundAt (l :: outer) name j ↔
      if name ∈ l.names then j = outer.length else BoundAt outer name j := by
  by_cases h : name ∈ l.names
  · simp only [BoundAt, depth?_cons, if_pos h, Option.some.injEq, exists_eq_left',
      List.length_cons]
    omega
  · simp only [BoundAt, depth?_cons, if_neg h, List.length_cons, Option.map_eq_some_iff]
    constructor
    · rintro ⟨_, ⟨d, hd, rfl⟩, hlen⟩
      exact ⟨d, hd, by omega⟩
    · rintro ⟨d, hd, hlen⟩
      exact ⟨d + 1, ⟨d, hd, rfl⟩, by omega⟩

/-- Whether a name is bound to the outermost one of some scopes does not depend on what is around
these. -/
theorem boundAt_append (layers outer : List Layer) (name : String) :
    BoundAt (layers ++ outer) name outer.length ↔
      depth? layers name = some (layers.length - 1) := by
  unfold BoundAt
  rw [depth?_append, List.length_append]
  cases hd : depth? layers name with
  | none =>
    simp only [Option.none_or, Option.map_eq_some_iff, reduceCtorEq, iff_false]
    rintro ⟨_, ⟨d, -, rfl⟩, hlen⟩
    omega
  | some d =>
    obtain ⟨hlt, -, -⟩ := List.findIdx?_eq_some_iff_getElem.1 hd
    simp only [Option.some_or, Option.some.injEq, exists_eq_left']
    omega

end Layers

/-- A node reads the name `x`, which is bound to the scope that has `j` scopes around it. -/
def Visit.Reads (v : Visit) (x : String) (j : Nat) : Prop :=
  v.use = .read ∧ v.name = x ∧ Layers.BoundAt v.layers x j

/-- What matters of a node for what is read: not its number, and not the class body around it. -/
def Visit.core (outer : List Layer) (v : Visit) : String × Use × List Layer :=
  (v.name, v.use, v.layers ++ outer)

theorem Expr.core_visits (e : Expr) (cls cls' : ClassRole) (layers outer : List Layer) :
    (e.visits cls (layers ++ outer)).map (Visit.core []) =
      (e.visits cls' layers).map (Visit.core outer) := by
  rw [e.visits_eq_map cls cls' (layers ++ outer) layers, List.map_map]
  refine List.map_congr_left fun v hv => ?_
  simp [Visit.core, Visit.standingAt, (e.mem_visits hv).2]

theorem Expr.core_optionVisits (o : Option Expr) (cls cls' : ClassRole)
    (layers outer : List Layer) :
    (Expr.optionVisits cls (layers ++ outer) o).map (Visit.core []) =
      (Expr.optionVisits cls' layers o).map (Visit.core outer) := by
  cases o with
  | none => rfl
  | some e => exact e.core_visits cls cls' layers outer

theorem ClassDecl.layers_append (decl : ClassDecl) (h : layers ≠ []) (outer : List Layer) :
    decl.layers (layers ++ outer) = decl.layers layers ++ outer := by
  unfold ClassDecl.layers
  cases decl.superclass <;> simp [Layers.declare_append h]

mutual

/-- Scopes farther out are only put behind the scopes of each node. -/
theorem Stmt.core_visits (s : Stmt) (cls cls' : ClassRole) {layers : List Layer}
    (h : layers ≠ []) (outer : List Layer) :
    (s.visits cls (layers ++ outer)).map (Visit.core []) =
      (s.visits cls' layers).map (Visit.core outer) := by
  cases s with
  | expression e => exact e.core_visits cls cls' layers outer
  | print e => exact e.core_visits cls cls' layers outer
  | varDecl name value =>
    simp only [Stmt.visits, Layers.await_append h]
    exact Expr.core_optionVisits value cls cls' _ outer
  | block body => exact Stmts.core_visits body cls cls' (List.cons_ne_nil _ _) outer
  | ifThen c a =>
    simp only [Stmt.visits, List.map_append, c.core_visits cls cls', a.core_visits cls cls' h]
  | ifElse c a b =>
    simp only [Stmt.visits, List.map_append, c.core_visits cls cls', a.core_visits cls cls' h,
      b.core_visits cls cls' h]
  | whileLoop c body =>
    simp only [Stmt.visits, List.map_append, c.core_visits cls cls', body.core_visits cls cls' h]
  | funDecl decl =>
    simp only [Stmt.visits, Layers.declare_append h]
    exact decl.core_visits cls cls' _ outer
  | returnWith keyword value => exact Expr.core_optionVisits value cls cls' layers outer
  | classDecl decl =>
    obtain ⟨name, superclass, methods, statics⟩ := decl
    have hlayers := ClassDecl.layers_append ⟨name, superclass, methods, statics⟩ h outer
    simp only [Stmt.visits, List.map_append, Layers.await_append h, hlayers,
      Expr.core_optionVisits superclass cls cls', FunctionDecls.core_staticVisits statics,
      FunctionDecls.core_methodVisits methods]

theorem Stmts.core_visits (ss : List Stmt) (cls cls' : ClassRole) {layers : List Layer}
    (h : layers ≠ []) (outer : List Layer) :
    (Stmts.visits cls (layers ++ outer) ss).map (Visit.core []) =
      (Stmts.visits cls' layers ss).map (Visit.core outer) := by
  cases ss with
  | nil => rfl
  | cons s ss =>
    simp only [Stmts.visits, List.map_append, s.core_visits cls cls' h, Layers.after_append h,
      Stmts.core_visits ss cls cls' (Layers.after_ne_nil h s)]

/-- A function has a scope of its own, so there may be none around it. -/
theorem FunctionDecl.core_visits (f : FunctionDecl) (cls cls' : ClassRole)
    (layers outer : List Layer) :
    (f.visits cls (layers ++ outer)).map (Visit.core []) =
      (f.visits cls' layers).map (Visit.core outer) := by
  obtain ⟨name, params, body⟩ := f
  exact Stmts.core_visits body cls cls' (List.cons_ne_nil _ layers) outer

theorem FunctionDecls.core_methodVisits (ms : List FunctionDecl) (cls : ClassRole)
    (layers outer : List Layer) :
    (FunctionDecls.methodVisits cls (layers ++ outer) ms).map (Visit.core []) =
      (FunctionDecls.methodVisits cls layers ms).map (Visit.core outer) := by
  cases ms with
  | nil => rfl
  | cons m ms =>
    simp only [FunctionDecls.methodVisits, List.map_append, ← List.cons_append,
      m.core_visits cls cls, FunctionDecls.core_methodVisits ms]

theorem FunctionDecls.core_staticVisits (ms : List FunctionDecl) (layers outer : List Layer) :
    (FunctionDecls.staticVisits (layers ++ outer) ms).map (Visit.core []) =
      (FunctionDecls.staticVisits layers ms).map (Visit.core outer) := by
  cases ms with
  | nil => rfl
  | cons m ms =>
    simp only [FunctionDecls.staticVisits, List.map_append, m.core_visits .static .static,
      FunctionDecls.core_staticVisits ms]

end

/-- A name that is read in a scope is read there wherever the scope stands. -/
theorem exists_reads_iff {vs us : List Visit} {outer : List Layer} {x : String}
    (h : vs.map (Visit.core []) = us.map (Visit.core outer)) :
    (∃ v ∈ vs, v.Reads x outer.length) ↔
      ∃ u ∈ us, u.use = .read ∧ u.name = x ∧
        Layers.depth? u.layers x = some (u.layers.length - 1) := by
  have hcore : ∀ v u : Visit, v.core [] = u.core outer →
      (v.Reads x outer.length ↔ u.use = .read ∧ u.name = x ∧
        Layers.depth? u.layers x = some (u.layers.length - 1)) := by
    intro v u hvu
    simp only [Visit.core, List.append_nil, Prod.mk.injEq] at hvu
    obtain ⟨hname, huse, hlayers⟩ := hvu
    rw [Visit.Reads, huse, hname, hlayers, Layers.boundAt_append]
  constructor
  · rintro ⟨v, hv, hreads⟩
    obtain ⟨u, hu, heq⟩ := List.mem_map.1 (h ▸ List.mem_map_of_mem hv)
    exact ⟨u, hu, (hcore v u heq.symm).1 hreads⟩
  · rintro ⟨u, hu, hreads⟩
    obtain ⟨v, hv, heq⟩ := List.mem_map.1 (h ▸ List.mem_map_of_mem (f := Visit.core outer) hu)
    exact ⟨v, hv, (hcore v u heq).2 hreads⟩

/-- A name that a block declares is read in it, whatever is around the block. -/
theorem reads_block_iff (body : List Stmt) (cls : ClassRole) (outer : List Layer) (x : String) :
    (∃ v ∈ Stmts.visits cls (.block body :: outer) body, v.Reads x outer.length) ↔
      (Region.block body).Reads x :=
  exists_reads_iff (Stmts.core_visits body cls .outside (List.cons_ne_nil (Layer.block body) []) outer)

/-- A name that a function declares is read in it, whatever is around the function. -/
theorem reads_call_iff (f : FunctionDecl) (cls : ClassRole) (outer : List Layer) (x : String) :
    (∃ v ∈ f.visits cls outer, v.Reads x outer.length) ↔ (Region.call f).Reads x :=
  exists_reads_iff (f.core_visits cls .outside [] outer)

end Lox
