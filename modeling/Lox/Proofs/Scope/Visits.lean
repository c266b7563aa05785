import Lox.Proofs.Syntax.Tree
import Lox.Scope.Resolution

/-!
# Where the nodes of a program stand

The nodes of a program that refer to a variable, each with the scopes around it. A scope is
that of a block, of the parameters and the body of a function, of the receiver of a method, or
of the superclass of a class. It is described by what it belongs to and by the names that it
declares before the node, in the order of the text. A name is bound to the innermost scope
around its node that declares it there.

No two nodes have one number, except for the two copies of the left operand of `??`, and these
stand at the same place. So a number says where its node stands.
-/

namespace Lox

/-- What a scope belongs to. -/
inductive Region where
  | block (body : List Stmt)
  | call (decl : FunctionDecl)
  | receiver (method : FunctionDecl)
  | superclass (decl : ClassDecl)

/-- A scope: what it belongs to, the names it declares so far, and the one of them whose
initializer is not complete. -/
structure Layer where
  region : Region
  names : List String := []
  pending : Option String := none

namespace Layers

/-- Declare a name in the innermost scope. At the top level nothing is declared. -/
def declare (name : String) : List Layer → List Layer
  | [] => []
  | l :: outer => { l with names := name :: l.names, pending := none } :: outer

/-- Declare a name in the innermost scope, up to its initializer. -/
def await (name : String) : List Layer → List Layer
  | [] => []
  | l :: outer => { l with names := name :: l.names, pending := some name } :: outer

/-- The scopes behind a statement. -/
def after (layers : List Layer) (s : Stmt) : List Layer :=
  match s.declared? with
  | some name => declare name.lexeme layers
  | none => layers

/-- How many scopes out a name is declared, if one of the scopes declares it. -/
def depth? (layers : List Layer) (name : String) : Option Nat :=
  layers.findIdx? fun l => l.names.contains name

theorem depth?_nil (name : String) : depth? [] name = none := rfl

theorem depth?_cons (l : Layer) (outer : List Layer) (name : String) :
    depth? (l :: outer) name =
      if name ∈ l.names then some 0 else (depth? outer name).map (· + 1) := by
  simp [depth?, List.findIdx?_cons]

end Layers

namespace Layer

def block (body : List Stmt) : Layer := { region := .block body }

/-- The scope of a call, with the parameters. -/
def call (decl : FunctionDecl) : Layer :=
  { region := .call decl, names := (decl.params.map Token.lexeme).reverse }

def receiver (method : FunctionDecl) : Layer := { region := .receiver method, names := ["this"] }

def superclass (decl : ClassDecl) : Layer := { region := .superclass decl, names := ["super"] }

end Layer

/-- What a node does with its variable. -/
inductive Use where
  | read
  | write
  | receiver
  | superclass
  deriving DecidableEq

/-- A node that refers to a variable, the kind of class body that it is in, and the scopes
around it. -/
structure Visit where
  id : Nat
  name : String
  use : Use
  cls : ClassRole
  layers : List Layer

def Visit.binding (v : Visit) : Binding := ⟨v.id, v.name, Layers.depth? v.layers v.name⟩

mutual

/-- The nodes of an expression. -/
def Expr.visits (cls : ClassRole) (layers : List Layer) : Expr → List Visit
  | .literal _ => []
  | .grouping inner => inner.visits cls layers
  | .unary _ operand => operand.visits cls layers
  | .binary left _ right => left.visits cls layers ++ right.visits cls layers
  | .logical left _ right => left.visits cls layers ++ right.visits cls layers
  | .conditional c a b => c.visits cls layers ++ (a.visits cls layers ++ b.visits cls layers)
  | .var id name => [⟨id, name.lexeme, .read, cls, layers⟩]
  | .assign id name value => value.visits cls layers ++ [⟨id, name.lexeme, .write, cls, layers⟩]
  | .call callee _ arguments => callee.visits cls layers ++ Exprs.visits cls layers arguments
  | .get object _ => object.visits cls layers
  | .set object _ value => value.visits cls layers ++ object.visits cls layers
  | .thisRef id keyword => [⟨id, keyword.lexeme, .receiver, cls, layers⟩]
  | .superRef id keyword _ => [⟨id, keyword.lexeme, .superclass, cls, layers⟩]

def Exprs.visits (cls : ClassRole) (layers : List Layer) : List Expr → List Visit
  | [] => []
  | e :: es => e.visits cls layers ++ Exprs.visits cls layers es

end

/-- The nodes of an expression that may be missing. -/
def Expr.optionVisits (cls : ClassRole) (layers : List Layer) : Option Expr → List Visit
  | none => []
  | some e => e.visits cls layers

/-- The scopes around the members of a class. -/
def ClassDecl.layers (decl : ClassDecl) (layers : List Layer) : List Layer :=
  match decl.superclass with
  | none => Layers.declare decl.name.lexeme layers
  | some _ => Layer.superclass decl :: Layers.declare decl.name.lexeme layers

/-- The kind of class body that the methods of a class are in. -/
def ClassDecl.role (decl : ClassDecl) : ClassRole :=
  if decl.superclass.isSome then .subclass else .plain

mutual

/-- The nodes of a statement. -/
def Stmt.visits (cls : ClassRole) (layers : List Layer) : Stmt → List Visit
  | .expression e => e.visits cls layers
  | .print e => e.visits cls layers
  | .varDecl name value => Expr.optionVisits cls (Layers.await name.lexeme layers) value
  | .block body => Stmts.visits cls (.block body :: layers) body
  | .ifThen c a => c.visits cls layers ++ a.visits cls layers
  | .ifElse c a b => c.visits cls layers ++ (a.visits cls layers ++ b.visits cls layers)
  | .whileLoop c body => c.visits cls layers ++ body.visits cls layers
  | .funDecl decl => decl.visits cls (Layers.declare decl.name.lexeme layers)
  | .returnWith _ value => Expr.optionVisits cls layers value
  | .classDecl ⟨name, superclass, methods, statics⟩ =>
    let decl : ClassDecl := ⟨name, superclass, methods, statics⟩
    Expr.optionVisits cls (Layers.await name.lexeme layers) superclass ++
      (FunctionDecls.staticVisits (decl.layers layers) statics ++
        FunctionDecls.methodVisits decl.role (decl.layers layers) methods)

/-- The nodes of statements, each of which sees what those before it declare. -/
def Stmts.visits (cls : ClassRole) (layers : List Layer) : List Stmt → List Visit
  | [] => []
  | s :: ss => s.visits cls layers ++ Stmts.visits cls (Layers.after layers s) ss

def FunctionDecl.visits (cls : ClassRole) (layers : List Layer) : FunctionDecl → List Visit
  | ⟨name, params, body⟩ => Stmts.visits cls (.call ⟨name, params, body⟩ :: layers) body

/-- The nodes of methods, which see their receiver. -/
def FunctionDecls.methodVisits (cls : ClassRole) (layers : List Layer) :
    List FunctionDecl → List Visit
  | [] => []
  | m :: ms => m.visits cls (.receiver m :: layers) ++ FunctionDecls.methodVisits cls layers ms

def FunctionDecls.staticVisits (layers : List Layer) : List FunctionDecl → List Visit
  | [] => []
  | m :: ms => m.visits .static layers ++ FunctionDecls.staticVisits layers ms

end

theorem FunctionDecls.mem_methodVisits {cls : ClassRole} {layers : List Layer} {v : Visit}
    {ms : List FunctionDecl} : v ∈ methodVisits cls layers ms ↔
      ∃ m ∈ ms, v ∈ m.visits cls (.receiver m :: layers) := by
  induction ms with
  | nil => simp [methodVisits]
  | cons m ms ih => simp [methodVisits, ih]

theorem FunctionDecls.mem_staticVisits {layers : List Layer} {v : Visit}
    {ms : List FunctionDecl} :
    v ∈ staticVisits layers ms ↔ ∃ m ∈ ms, v ∈ m.visits .static layers := by
  induction ms with
  | nil => simp [staticVisits]
  | cons m ms ih => simp [staticVisits, ih]

/-! ## Numbers -/

/-- The nodes among `vs` have numbers from `n` on up to `k`, and no two of them have one
number. -/
structure Ranged (n k : Nat) (vs : List Visit) : Prop where
  le : n ≤ k
  bounds : ∀ v ∈ vs, n ≤ v.id ∧ v.id < k
  consistent : ∀ v ∈ vs, ∀ v' ∈ vs, v.id = v'.id → v = v'

namespace Ranged

variable {n j k : Nat} {vs us : List Visit}

theorem nil : Ranged n n [] := ⟨Nat.le_refl n, by simp, by simp⟩

theorem one (v : Visit) (h : v.id = n) : Ranged n (n + 1) [v] := by
  refine ⟨Nat.le_succ n, ?_, ?_⟩
  · rintro _ (_ | ⟨_, ⟨⟩⟩)
    omega
  · rintro _ (_ | ⟨_, ⟨⟩⟩) _ (_ | ⟨_, ⟨⟩⟩) -
    rfl

theorem mono (h : Ranged n k vs) (hsub : ∀ v ∈ us, v ∈ vs) : Ranged n k us :=
  ⟨h.le, fun v hv => h.bounds v (hsub v hv),
    fun v hv v' hv' => h.consistent v (hsub v hv) v' (hsub v' hv')⟩

/-- Nodes with numbers below `j` and nodes with numbers from `j` on. -/
theorem append (h : Ranged n j vs) (h' : Ranged j k us) : Ranged n k (vs ++ us) := by
  refine ⟨Nat.le_trans h.le h'.le, fun v hv => ?_, fun v hv v' hv' hid => ?_⟩
  · rcases List.mem_append.1 hv with hv | hv
    · have := h.bounds v hv
      have := h'.le
      omega
    · have := h'.bounds v hv
      have := h.le
      omega
  · rcases List.mem_append.1 hv with hv | hv <;> rcases List.mem_append.1 hv' with hv' | hv'
    · exact h.consistent v hv v' hv' hid
    · have := h.bounds v hv
      have := h'.bounds v' hv'
      omega
    · have := h'.bounds v hv
      have := h.bounds v' hv'
      omega
    · exact h'.consistent v hv v' hv' hid

/-- Skip a number. -/
theorem skip (h : Ranged (n + 1) k vs) : Ranged n k vs :=
  ⟨Nat.le_of_succ_le h.le, fun v hv => ⟨Nat.le_of_succ_le (h.bounds v hv).1, (h.bounds v hv).2⟩,
    h.consistent⟩

end Ranged

mutual

theorem Expr.Numbered.ranged {n k : NodeId} {e : Expr} (cls : ClassRole) (layers : List Layer)
    (h : Expr.Numbered n e k) : Ranged n k (e.visits cls layers) :=
  match h with
  | .literal => .nil
  | .grouping h => h.ranged cls layers
  | .unary h => h.ranged cls layers
  | .binary hl hr => (hl.ranged cls layers).append (hr.ranged cls layers)
  | .logical hl hr => (hl.ranged cls layers).append (hr.ranged cls layers)
  | .conditional hc ha hb =>
    (hc.ranged cls layers).append ((ha.ranged cls layers).append (hb.ranged cls layers))
  | .var => .one _ rfl
  | .assign h => (h.ranged cls layers).skip.append (.one _ rfl)
  | .call hf hes => (hf.ranged cls layers).append (hes.ranged cls layers)
  | .get h => h.ranged cls layers
  | .set ho hv => ((ho.ranged cls layers).append (hv.ranged cls layers)).mono fun v hv => by
      simpa [Expr.visits, or_comm] using hv
  | .thisRef => .one _ rfl
  | .superRef => .one _ rfl
  | .coalesce hl hb => ((hl.ranged cls layers).append (hb.ranged cls layers)).mono fun v hv => by
      simpa [Expr.visits] using hv

theorem Exprs.Numbered.ranged {n k : NodeId} {es : List Expr} (cls : ClassRole)
    (layers : List Layer) (h : Exprs.Numbered n es k) : Ranged n k (Exprs.visits cls layers es) :=
  match h with
  | .nil => .nil
  | .cons he hes => (he.ranged cls layers).append (hes.ranged cls layers)

end

theorem Expr.OptionNumbered.ranged {n k : NodeId} {o : Option Expr} (cls : ClassRole)
    (layers : List Layer) (h : Expr.OptionNumbered n o k) :
    Ranged n k (Expr.optionVisits cls layers o) := by
  cases h with
  | none => exact .nil
  | some h => exact h.ranged cls layers

mutual

theorem Stmt.Numbered.ranged {n k : NodeId} {s : Stmt} (cls : ClassRole) (layers : List Layer)
    (h : Stmt.Numbered n s k) : Ranged n k (s.visits cls layers) :=
  match h with
  | .expression h => h.ranged cls layers
  | .print h => h.ranged cls layers
  | .varDecl h => h.ranged cls _
  | .block h => h.ranged cls _
  | .ifThen hc ha => (hc.ranged cls layers).append (ha.ranged cls layers)
  | .ifElse hc ha hb =>
    (hc.ranged cls layers).append ((ha.ranged cls layers).append (hb.ranged cls layers))
  | .whileLoop hc hbody => (hc.ranged cls layers).append (hbody.ranged cls layers)
  | .funDecl h => h.ranged cls _
  | .returnWith h => h.ranged cls layers
  | .classDecl hs hms => (hs.ranged cls _).append (hms.ranged _ _)
  | @Stmt.Numbered.round _ _ _ body increment he hbody =>
    let inner : List Layer := .block [body, .expression increment] :: layers
    ((he.ranged cls (Layers.after inner body)).append (hbody.ranged cls inner)).mono fun v hv => by
      simpa [Stmt.visits, Stmts.visits, or_comm] using hv

theorem Stmts.Numbered.ranged {n k : NodeId} {ss : List Stmt} (cls : ClassRole)
    (layers : List Layer) (h : Stmts.Numbered n ss k) : Ranged n k (Stmts.visits cls layers ss) :=
  match h with
  | .nil => .nil
  | .cons hs hss => (hs.ranged cls layers).append (hss.ranged cls _)

theorem FunctionDecl.Numbered.ranged {n k : NodeId} {f : FunctionDecl} (cls : ClassRole)
    (layers : List Layer) (h : FunctionDecl.Numbered n f k) : Ranged n k (f.visits cls layers) :=
  match h with
  | .body h => h.ranged cls _

/-- The members of a class have their numbers in the order in which they are written, which is
neither that of the methods nor that of the static methods. -/
theorem Members.Numbered.ranged {n k : NodeId} {ms : List (Bool × FunctionDecl)}
    (cls : ClassRole) (layers : List Layer) (h : Members.Numbered n ms k) :
    Ranged n k (FunctionDecls.staticVisits layers (selectMembers true ms) ++
      FunctionDecls.methodVisits cls layers (selectMembers false ms)) :=
  match h with
  | .nil => .nil
  | @Members.Numbered.cons _ _ _ true _ _ hf hms =>
    ((hf.ranged .static layers).append (hms.ranged cls layers)).mono fun v hv => by
      simpa [selectMembers, FunctionDecls.staticVisits, or_assoc] using hv
  | @Members.Numbered.cons _ _ _ false f _ hf hms =>
    ((hf.ranged cls (.receiver f :: layers)).append (hms.ranged cls layers)).mono fun v hv => by
      simpa [selectMembers, FunctionDecls.methodVisits, or_left_comm] using hv

end

/-! ## Receivers and superclasses -/

/-- The scope of a block or a call, which declares only names of the program. -/
def Layer.Plain (l : Layer) : Prop :=
  "this" ∉ l.names ∧ "super" ∉ l.names ∧ ∀ m, l.region ≠ .receiver m

/-- The scopes around code in a class body of the given kind. Around the code of a method is the
scope of its receiver, and around that, if there is a superclass, the scope of the superclass. -/
inductive Within : ClassRole → List Layer → Prop
  | outside {layers : List Layer} : Within .outside layers
  | static {layers : List Layer} : Within .static layers
  | method {l : Layer} {m : FunctionDecl} {layers : List Layer} :
      l.Plain → Within .plain (l :: .receiver m :: layers)
  | submethod {l : Layer} {m : FunctionDecl} {d : ClassDecl} {layers : List Layer} :
      l.Plain → Within .subclass (l :: .receiver m :: .superclass d :: layers)
  | inner {cls : ClassRole} {l : Layer} {layers : List Layer} :
      l.Plain → Within cls layers → Within cls (l :: layers)

theorem Token.IsName.plain {name : Token} {l : Layer} {p : Option String} (h : name.IsName)
    (hl : l.Plain) : Layer.Plain { l with names := name.lexeme :: l.names, pending := p } := by
  simpa [Layer.Plain, Ne.symm h.1, Ne.symm h.2] using hl

/-- The innermost scope may be another one. -/
theorem Within.change {cls : ClassRole} {l l' : Layer} {layers : List Layer}
    (h : Within cls (l :: layers)) (hl : l.Plain → l'.Plain) : Within cls (l' :: layers) := by
  cases h with
  | outside => exact .outside
  | static => exact .static
  | method h => exact .method (hl h)
  | submethod h => exact .submethod (hl h)
  | inner h houter => exact .inner (hl h) houter

theorem Within.declare {cls : ClassRole} {layers : List Layer} {name : Token}
    (h : Within cls layers) (hname : name.IsName) :
    Within cls (Layers.declare name.lexeme layers) := by
  cases layers with
  | nil => exact h
  | cons l layers => exact h.change hname.plain

theorem Within.await {cls : ClassRole} {layers : List Layer} {name : Token}
    (h : Within cls layers) (hname : name.IsName) :
    Within cls (Layers.await name.lexeme layers) := by
  cases layers with
  | nil => exact h
  | cons l layers => exact h.change hname.plain

theorem Layer.plain_call {f : FunctionDecl} (h : f.WellFormed) : (Layer.call f).Plain := by
  obtain ⟨name, params, body⟩ := f
  obtain ⟨-, hparams, -⟩ := h
  have hne : ∀ p ∈ params, p.lexeme ≠ "this" ∧ p.lexeme ≠ "super" := hparams
  simp only [Layer.Plain, Layer.call, List.mem_reverse, List.mem_map, not_exists, not_and]
  exact ⟨fun p hp => (hne p hp).1, fun p hp => (hne p hp).2, nofun⟩

/-- In a method, the scopes of blocks and calls come first, then that of the receiver, and then that
of the superclass if the class has one. -/
theorem Within.exists_split {cls : ClassRole} {layers : List Layer} (h : Within cls layers)
    (hcls : cls = .plain ∨ cls = .subclass) :
    ∃ inner m outer, layers = inner ++ .receiver m :: outer ∧ (∀ l ∈ inner, l.Plain) ∧
      (cls = .subclass → ∃ d rest, outer = .superclass d :: rest) := by
  induction h with
  | outside => simp at hcls
  | static => simp at hcls
  | @method l m layers hl => exact ⟨[l], m, layers, rfl, List.forall_mem_singleton.2 hl, nofun⟩
  | @submethod l m d layers hl =>
    exact ⟨[l], m, _, rfl, List.forall_mem_singleton.2 hl, fun _ => ⟨d, layers, rfl⟩⟩
  | @inner cls l layers hl _ ih =>
    obtain ⟨inner, m, outer, rfl, hinner, hsuper⟩ := ih hcls
    exact ⟨l :: inner, m, outer, rfl, List.forall_mem_cons.2 ⟨hl, hinner⟩, hsuper⟩

theorem Layers.depth?_this {inner outer : List Layer} {m : FunctionDecl}
    (hinner : ∀ l ∈ inner, l.Plain) :
    Layers.depth? (inner ++ .receiver m :: outer) "this" = some inner.length := by
  induction inner with
  | nil => simp [Layers.depth?_cons, Layer.receiver]
  | cons l inner ih =>
    obtain ⟨hl, hinner⟩ := List.forall_mem_cons.1 hinner
    rw [List.cons_append, Layers.depth?_cons, if_neg hl.1, ih hinner]
    rfl

theorem Layers.depth?_super {inner outer : List Layer} {m : FunctionDecl} {d : ClassDecl}
    (hinner : ∀ l ∈ inner, l.Plain) :
    Layers.depth? (inner ++ .receiver m :: .superclass d :: outer) "super" =
      some (inner.length + 1) := by
  induction inner with
  | nil => simp [Layers.depth?_cons, Layer.receiver, Layer.superclass]
  | cons l inner ih =>
    obtain ⟨hl, hinner⟩ := List.forall_mem_cons.1 hinner
    rw [List.cons_append, Layers.depth?_cons, if_neg hl.2.1, ih hinner]
    rfl

/-- In a method the receiver is declared by the scope that is made for it. -/
theorem Within.receiver {cls : ClassRole} {layers : List Layer} (h : Within cls layers)
    (hcls : cls = .plain ∨ cls = .subclass) :
    ∃ d m, Layers.depth? layers "this" = some d ∧ layers[d]? = some (.receiver m) := by
  obtain ⟨inner, m, outer, rfl, hinner, -⟩ := h.exists_split hcls
  exact ⟨_, m, Layers.depth?_this hinner, by simp⟩

/-- In a method of a class with a superclass, the scope of the superclass is around that of the
receiver. -/
theorem Within.superclass {layers : List Layer} (h : Within .subclass layers) :
    ∃ d m c, Layers.depth? layers "super" = some (d + 1) ∧ layers[d]? = some (.receiver m) ∧
      layers[d + 1]? = some (.superclass c) := by
  obtain ⟨inner, m, outer, rfl, hinner, hsuper⟩ := h.exists_split (.inr rfl)
  obtain ⟨c, rest, rfl⟩ := hsuper rfl
  exact ⟨_, m, c, Layers.depth?_super hinner, by simp, by simp⟩

/-- A node as it is at another place. -/
def Visit.standingAt (cls : ClassRole) (layers : List Layer) (v : Visit) : Visit :=
  { v with cls := cls, layers := layers }

mutual

/-- The nodes of an expression are the same at another place. -/
theorem Expr.visits_eq_map (e : Expr) (cls cls' : ClassRole) (layers layers' : List Layer) :
    e.visits cls layers = (e.visits cls' layers').map (Visit.standingAt cls layers) := by
  cases e with
  | literal | var | thisRef | superRef => rfl
  | grouping inner => exact inner.visits_eq_map cls cls' layers layers'
  | unary op operand => exact operand.visits_eq_map cls cls' layers layers'
  | binary left op right | logical left op right =>
    rw [Expr.visits, Expr.visits, List.map_append, ← left.visits_eq_map, ← right.visits_eq_map]
  | conditional c a b =>
    rw [Expr.visits, Expr.visits, List.map_append, List.map_append, ← c.visits_eq_map,
      ← a.visits_eq_map, ← b.visits_eq_map]
  | assign id name value =>
    rw [Expr.visits, Expr.visits, List.map_append, ← value.visits_eq_map]
    rfl
  | call callee paren arguments =>
    rw [Expr.visits, Expr.visits, List.map_append, ← callee.visits_eq_map,
      ← Exprs.visits_eq_map arguments]
  | get object name => exact object.visits_eq_map cls cls' layers layers'
  | set object name value =>
    rw [Expr.visits, Expr.visits, List.map_append, ← value.visits_eq_map, ← object.visits_eq_map]

theorem Exprs.visits_eq_map (es : List Expr) (cls cls' : ClassRole) (layers layers' : List Layer) :
    Exprs.visits cls layers es =
      (Exprs.visits cls' layers' es).map (Visit.standingAt cls layers) := by
  cases es with
  | nil => rfl
  | cons e es =>
    rw [Exprs.visits, Exprs.visits, List.map_append, ← e.visits_eq_map, ← Exprs.visits_eq_map es]

end

/-- All nodes of an expression are at the same place. -/
theorem Expr.mem_visits {cls : ClassRole} {layers : List Layer} {v : Visit} (e : Expr)
    (h : v ∈ e.visits cls layers) : v.cls = cls ∧ v.layers = layers := by
  rw [e.visits_eq_map cls cls layers layers] at h
  obtain ⟨v', -, rfl⟩ := List.mem_map.1 h
  exact ⟨rfl, rfl⟩

mutual

/-- What refers to the receiver or the superclass is the keyword for it. -/
theorem Expr.keyword_of_mem_visits {cls : ClassRole} {layers : List Layer} {v : Visit} (e : Expr)
    (he : e.WellFormed) (h : v ∈ e.visits cls layers) :
    (v.use = .receiver → v.name = "this") ∧ (v.use = .superclass → v.name = "super") := by
  cases e with
  | literal => cases h
  | grouping inner => exact inner.keyword_of_mem_visits he h
  | unary op operand => exact operand.keyword_of_mem_visits he.2 h
  | binary left op right =>
    exact (List.mem_append.1 h).elim (left.keyword_of_mem_visits he.2.1)
      (right.keyword_of_mem_visits he.2.2)
  | logical left op right =>
    exact (List.mem_append.1 h).elim (left.keyword_of_mem_visits he.1)
      (right.keyword_of_mem_visits he.2)
  | conditional c a b =>
    exact (List.mem_append.1 h).elim (c.keyword_of_mem_visits he.1) fun h =>
      (List.mem_append.1 h).elim (a.keyword_of_mem_visits he.2.1) (b.keyword_of_mem_visits he.2.2)
  | var =>
    obtain rfl := List.mem_singleton.1 h
    exact ⟨nofun, nofun⟩
  | assign id name value =>
    refine (List.mem_append.1 h).elim (value.keyword_of_mem_visits he.2) fun h => ?_
    obtain rfl := List.mem_singleton.1 h
    exact ⟨nofun, nofun⟩
  | call callee paren arguments =>
    exact (List.mem_append.1 h).elim (callee.keyword_of_mem_visits he.1)
      (Exprs.keyword_of_mem_visits arguments he.2)
  | get object name => exact object.keyword_of_mem_visits he h
  | set object name value =>
    exact (List.mem_append.1 h).elim (value.keyword_of_mem_visits he.2)
      (object.keyword_of_mem_visits he.1)
  | thisRef id keyword =>
    obtain rfl := List.mem_singleton.1 h
    exact ⟨fun _ => he, nofun⟩
  | superRef id keyword method =>
    obtain rfl := List.mem_singleton.1 h
    exact ⟨nofun, fun _ => he⟩

theorem Exprs.keyword_of_mem_visits {cls : ClassRole} {layers : List Layer} {v : Visit}
    (es : List Expr) (hes : Exprs.WellFormed es) (h : v ∈ Exprs.visits cls layers es) :
    (v.use = .receiver → v.name = "this") ∧ (v.use = .superclass → v.name = "super") := by
  cases es with
  | nil => cases h
  | cons e es =>
    exact (List.mem_append.1 h).elim (e.keyword_of_mem_visits hes.1)
      (Exprs.keyword_of_mem_visits es hes.2)

end

theorem Expr.mem_optionVisits {cls : ClassRole} {layers : List Layer} {v : Visit}
    {o : Option Expr} (h : v ∈ Expr.optionVisits cls layers o) :
    v.cls = cls ∧ v.layers = layers := by
  cases o with
  | none => cases h
  | some e => exact e.mem_visits h

/-- The scopes around the members of a class, and around the code of its methods. -/
theorem ClassDecl.within_methods {decl : ClassDecl} {layers : List Layer} {m : FunctionDecl}
    (hm : m.WellFormed) : Within decl.role (.call m :: .receiver m :: decl.layers layers) := by
  unfold ClassDecl.role ClassDecl.layers
  cases decl.superclass with
  | none => exact .method (Layer.plain_call hm)
  | some _ => exact .submethod (Layer.plain_call hm)

mutual

/-- Around a node are the scopes that the class body around it asks for. -/
theorem Stmt.within_visits {cls : ClassRole} {layers : List Layer} (s : Stmt) (hs : s.WellFormed)
    (h : Within cls layers) : ∀ v ∈ s.visits cls layers, Within v.cls v.layers := by
  have hexpr : ∀ (e : Expr), ∀ v ∈ e.visits cls layers, Within v.cls v.layers := by
    intro e v hv
    obtain ⟨rfl, rfl⟩ := e.mem_visits hv
    exact h
  intro v hv
  cases s with
  | expression e => exact hexpr e v hv
  | print e => exact hexpr e v hv
  | varDecl name value =>
    obtain ⟨rfl, hl⟩ := Expr.mem_optionVisits hv
    rw [hl]
    exact h.await hs.1
  | block body =>
    exact Stmts.within_visits body hs (.inner (by simp [Layer.Plain, Layer.block]) h) v hv
  | ifThen c a =>
    exact (List.mem_append.1 hv).elim (hexpr c v) (a.within_visits hs.2.2 h v)
  | ifElse c a b =>
    exact (List.mem_append.1 hv).elim (hexpr c v) fun hv =>
      (List.mem_append.1 hv).elim (a.within_visits hs.2.1.2 h v) (b.within_visits hs.2.2.2 h v)
  | whileLoop c body =>
    exact (List.mem_append.1 hv).elim (hexpr c v) (body.within_visits hs.2.2 h v)
  | funDecl decl =>
    have hname := FunctionDecl.WellFormed.isName hs
    have hlayers := Within.inner (Layer.plain_call hs) (h.declare hname)
    exact decl.within_visits hs hlayers v hv
  | returnWith keyword value =>
    obtain ⟨rfl, hl⟩ := Expr.mem_optionVisits hv
    rw [hl]
    exact h
  | classDecl decl =>
    obtain ⟨name, superclass, methods, statics⟩ := decl
    obtain ⟨hname, -, hmethods, hstatics⟩ := hs
    rcases List.mem_append.1 hv with hv | hv
    · obtain ⟨rfl, hl⟩ := Expr.mem_optionVisits hv
      rw [hl]
      exact h.await hname
    · rcases List.mem_append.1 hv with hv | hv
      · obtain ⟨m, hm, hv⟩ := FunctionDecls.mem_staticVisits.1 hv
        exact FunctionDecls.within_visits statics hstatics m hm .static v hv
      · obtain ⟨m, hm, hv⟩ := FunctionDecls.mem_methodVisits.1 hv
        exact FunctionDecls.within_visits methods hmethods m hm
          (ClassDecl.within_methods (FunctionDecls.wellFormed_iff.1 hmethods m hm)) v hv

/-- Around a node are the scopes that the class body around it asks for. -/
theorem Stmts.within_visits {cls : ClassRole} {layers : List Layer} (ss : List Stmt)
    (hss : Stmts.WellFormed ss) (h : Within cls layers) :
    ∀ v ∈ Stmts.visits cls layers ss, Within v.cls v.layers := by
  cases ss with
  | nil => simp [Stmts.visits]
  | cons s ss =>
    intro v hv
    refine (List.mem_append.1 hv).elim (s.within_visits hss.1 h v) ?_
    refine Stmts.within_visits ss hss.2 ?_ v
    unfold Layers.after
    split
    case h_1 name hname => exact h.declare (hss.1.isName_declared hname)
    case h_2 => exact h

/-- Around a node are the scopes that the class body around it asks for. -/
theorem FunctionDecl.within_visits {cls : ClassRole} {layers : List Layer} (f : FunctionDecl)
    (hf : f.WellFormed) (h : Within cls (.call f :: layers)) :
    ∀ v ∈ f.visits cls layers, Within v.cls v.layers := by
  obtain ⟨name, params, body⟩ := f
  exact Stmts.within_visits body hf.2.2 h

theorem FunctionDecls.within_visits (ms : List FunctionDecl) (hms : FunctionDecls.WellFormed ms) :
    ∀ m ∈ ms, ∀ {cls layers}, Within cls (.call m :: layers) →
      ∀ v ∈ m.visits cls layers, Within v.cls v.layers := by
  cases ms with
  | nil => nofun
  | cons m ms =>
    exact List.forall_mem_cons.2 ⟨m.within_visits hms.1, FunctionDecls.within_visits ms hms.2⟩

end

end Lox
