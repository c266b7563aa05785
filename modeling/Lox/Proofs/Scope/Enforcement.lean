import Lox.Proofs.Parser.Statements
import Lox.Proofs.Scope.Tracking
import Lox.Proofs.Token.Spelling

/-!
# The walk enforces the rules of scope

The walk through a program reports nothing if and only if each statement of the program keeps to
the rules of scope where it stands. The walk is told what kind of function and of class body it is
in, which is what the path to the statement says. So the law of each part of a program is that its
statements are permitted where they stand and that the names it declares are new to the scope
around it.
-/

namespace Lox

variable {id : NodeId} {name keyword : Token} {value : Option Expr} {w : Walk Unit}
  {vs : List Visit} {s : Stmt} {c : Expr}

/-! ## Paths -/

namespace Path

/-- The kind of the nearest function around. -/
def functionRole (path : Path) : FunctionRole :=
  match path.function? with
  | none => .topLevel
  | some (.method _ m) => Resolution.methodRole m
  | some _ => .function

/-- The kind of the innermost class body around. -/
def classRole (path : Path) : ClassRole :=
  match path.member? with
  | some (.method cls _) => cls.role
  | some (.staticMethod _ _) => .static
  | _ => .outside

/-- What a walk is told about where it is. -/
def context (path : Path) : Context := ⟨path.functionRole, path.classRole⟩

theorem permitsReturn_iff (path : Path) (value : Option Expr) :
    path.PermitsReturn value ↔
      path.functionRole ≠ .topLevel ∧ (value.isSome → path.functionRole ≠ .initializer) := by
  unfold PermitsReturn functionRole
  cases path.function? with
  | none => simp
  | some f =>
    cases f with
    | method cls m =>
      by_cases hm : m.name.lexeme = initializerName <;>
        simp [Resolution.methodRole, FunctionDecl.isInitializer, hm]
    | _ => simp

theorem permitsNode_thisRef_iff (path : Path) (id : NodeId) (keyword : Token) :
    path.PermitsNode (.thisRef id keyword) ↔
      path.classRole = .plain ∨ path.classRole = .subclass := by
  unfold PermitsNode classRole
  cases path.member? with
  | none => simp
  | some f =>
    cases f with
    | method cls m => cases h : cls.superclass <;> simp [ClassDecl.role, h]
    | _ => simp

theorem permitsNode_superRef_iff (path : Path) (id : NodeId) (keyword method : Token) :
    path.PermitsNode (.superRef id keyword method) ↔ path.classRole = .subclass := by
  unfold PermitsNode classRole
  cases path.member? with
  | none => simp
  | some f =>
    cases f with
    | method cls m => cases h : cls.superclass <;> simp [ClassDecl.role, h]
    | _ => simp

end Path

/-! ## Expressions -/

/-- What is asked of a node: it is permitted, and it does not read a name that waits for its
initializer. -/
def Path.Admits (path : Path) (layers : List Layer) (n : Expr) : Prop :=
  path.PermitsNode n ∧ ∀ id name, n = .var id name → Layers.Ready layers name.lexeme

/-- What is asked of an expression. -/
def Expr.Lawful (path : Path) (layers : List Layer) (e : Expr) : Prop :=
  ∀ n ∈ e.nodes, path.Admits layers n

def Exprs.Lawful (path : Path) (layers : List Layer) (es : List Expr) : Prop :=
  ∀ n ∈ Exprs.nodes es, path.Admits layers n

namespace Resolution

open Walk

variable {path : Path} {layers : List Layer}

theorem inInitializer_eq_false_iff {scopes : List Scope} (h : Mirrors scopes layers)
    (name : String) : (inInitializer name scopes).value = false ↔ Layers.Ready layers name := by
  cases h with
  | nil => simp [inInitializer, Layers.Ready]
  | @cons scope l scopes layers hs h =>
    have hstatus := hs name
    simp only [Scope.status, Layer.status] at hstatus
    by_cases hname : name ∈ l.names
    · rw [if_pos hname] at hstatus
      obtain ⟨v, hv, hinit⟩ := Option.map_eq_some_iff.1 hstatus
      simp [inInitializer, Layers.Ready, hv, hname, hinit]
    · rw [if_neg hname, Option.map_eq_none_iff] at hstatus
      simp [inInitializer, Layers.Ready, hstatus, hname]

theorem abides_read {cls : ClassRole} :
    (read id name).Abides layers layers [⟨id, name.lexeme, .read, cls, layers⟩]
      (Layers.Ready layers name.lexeme) := by
  have hbind : (bindRead id name).Abides layers layers [⟨id, name.lexeme, .read, cls, layers⟩]
      True := abides_bindRead rfl rfl (.inl rfl)
  refine ⟨rfl, fun scopes h hr => ?_⟩
  have hinitializer := inInitializer_eq_false_iff h name.lexeme
  by_cases hready : Layers.Ready layers name.lexeme
  · have hstep : read id name scopes = bindRead id name scopes := by
      rw [read, bind_apply, hinitializer.2 hready]
      rfl
    rw [hstep]
    simpa [hready] using hbind.2 scopes h hr
  · have hpending : (inInitializer name.lexeme scopes).value = true := by
      simpa using mt hinitializer.1 hready
    refine ⟨?_, fun hlaw => absurd hlaw hready⟩
    rw [read, bind_apply, hpending]
    simp [hready, bind_apply, report]

theorem abides_receiver (hkeyword : keyword.lexeme = "this") :
    (receiver path.context id keyword).Abides layers layers
      [⟨id, keyword.lexeme, .receiver, path.classRole, layers⟩]
      (path.PermitsNode (.thisRef id keyword)) := by
  have hbind : (bindRead id keyword).Abides layers layers
      [⟨id, keyword.lexeme, .receiver, path.classRole, layers⟩] True :=
    abides_bindRead rfl rfl (.inr ⟨by simp, .inl hkeyword⟩)
  rw [Path.permitsNode_thisRef_iff]
  unfold receiver
  split
  case h_1 h =>
    have hcls : path.classRole = .outside := h
    exact abides_report.congr (by simp [hcls])
  case h_2 h =>
    have hcls : path.classRole = .static := h
    exact abides_report.congr (by simp [hcls])
  case h_3 h => exact hbind.congr (iff_of_true trivial (.inl h))
  case h_4 h => exact hbind.congr (iff_of_true trivial (.inr h))

theorem abides_superclass (hkeyword : keyword.lexeme = "super") (method : Token) :
    (superclass path.context id keyword).Abides layers layers
      [⟨id, keyword.lexeme, .superclass, path.classRole, layers⟩]
      (path.PermitsNode (.superRef id keyword method)) := by
  have hbind : (bindRead id keyword).Abides layers layers
      [⟨id, keyword.lexeme, .superclass, path.classRole, layers⟩] True :=
    abides_bindRead rfl rfl (.inr ⟨by simp, .inr hkeyword⟩)
  rw [Path.permitsNode_superRef_iff]
  unfold superclass
  split
  case h_1 h =>
    have hcls : path.classRole = .outside := h
    exact abides_report.congr (by simp [hcls])
  case h_2 h =>
    have hcls : path.classRole = .plain := h
    exact abides_report.congr (by simp [hcls])
  case h_3 h =>
    have hcls : path.classRole = .static := h
    exact abides_report.congr (by simp [hcls])
  case h_4 h => exact hbind.congr (iff_of_true trivial h)

mutual

/-- The walk reports nothing if and only if each node of the expression is admitted. -/
theorem abides_expr (e : Expr) (he : e.WellFormed) :
    (expr path.context e).Abides layers layers (e.visits path.classRole layers)
      (e.Lawful path layers) := by
  -- The node of an operator asks for nothing itself.
  cases e with
  | literal value =>
    exact abides_pure.congr (by simp [Expr.Lawful, Expr.nodes, Path.Admits, Path.PermitsNode])
  | grouping inner =>
    refine (abides_expr inner he).congr ?_
    simp only [Expr.Lawful, Expr.nodes, List.forall_mem_cons]
    exact (and_iff_right ⟨trivial, by simp⟩).symm
  | unary op operand =>
    refine (abides_expr operand he.2).congr ?_
    simp only [Expr.Lawful, Expr.nodes, List.forall_mem_cons]
    exact (and_iff_right ⟨trivial, by simp⟩).symm
  | binary left op right =>
    refine ((abides_expr left he.2.1).bind (abides_expr right he.2.2)).congr ?_
    simp only [Expr.Lawful, Expr.nodes, List.forall_mem_cons, List.forall_mem_append]
    exact (and_iff_right ⟨trivial, by simp⟩).symm
  | logical left op right =>
    refine ((abides_expr left he.1).bind (abides_expr right he.2)).congr ?_
    simp only [Expr.Lawful, Expr.nodes, List.forall_mem_cons, List.forall_mem_append]
    exact (and_iff_right ⟨trivial, by simp⟩).symm
  | conditional c a b =>
    refine ((abides_expr c he.1).bind
      ((abides_expr a he.2.1).bind (abides_expr b he.2.2))).congr ?_
    simp only [Expr.Lawful, Expr.nodes, List.forall_mem_cons, List.forall_mem_append]
    exact (and_iff_right ⟨trivial, by simp⟩).symm
  | var id name =>
    exact abides_read.congr (by simp [Expr.Lawful, Expr.nodes, Path.Admits, Path.PermitsNode])
  | assign id name value =>
    refine ((abides_expr value he.2).bind (abides_bindNode rfl)).congr ?_
    rw [and_true]
    simp only [Expr.Lawful, Expr.nodes, List.forall_mem_cons]
    exact (and_iff_right ⟨trivial, by simp⟩).symm
  | call callee paren arguments =>
    refine ((abides_expr callee he.1).bind (abides_exprs arguments he.2)).congr ?_
    simp only [Expr.Lawful, Expr.nodes, List.forall_mem_cons, List.forall_mem_append]
    exact (and_iff_right ⟨trivial, by simp⟩).symm
  | get object name =>
    refine (abides_expr object he).congr ?_
    simp only [Expr.Lawful, Expr.nodes, List.forall_mem_cons]
    exact (and_iff_right ⟨trivial, by simp⟩).symm
  | set object name value =>
    refine ((abides_expr value he.2).bind (abides_expr object he.1)).congr ?_
    rw [and_comm]
    simp only [Expr.Lawful, Expr.nodes, List.forall_mem_cons, List.forall_mem_append]
    exact (and_iff_right ⟨trivial, by simp⟩).symm
  | thisRef id keyword =>
    exact (abides_receiver he).congr (by simp [Expr.Lawful, Expr.nodes, Path.Admits])
  | superRef id keyword method =>
    refine (abides_superclass he method).congr ?_
    simp [Expr.Lawful, Expr.nodes, Path.Admits]

theorem abides_exprs (es : List Expr) (hes : Exprs.WellFormed es) :
    (exprs path.context es).Abides layers layers (Exprs.visits path.classRole layers es)
      (Exprs.Lawful path layers es) := by
  cases es with
  | nil => exact abides_pure.congr (by simp [Exprs.Lawful, Exprs.nodes])
  | cons e es =>
    refine ((abides_expr e hes.1).bind (abides_exprs es hes.2)).congr ?_
    simp only [Exprs.Lawful, Exprs.nodes, List.forall_mem_append]
    rfl

end

theorem abides_optional (o : Option Expr) (ho : Expr.OptionWellFormed o) :
    (optional path.context o).Abides layers layers (Expr.optionVisits path.classRole layers o)
      (∀ e ∈ o, e.Lawful path layers) := by
  cases o with
  | none => exact abides_pure.congr (by simp)
  | some e => exact (abides_expr e ho).congr (by simp)

/-- Where no name waits for its initializer, only the nodes are looked at. -/
theorem lawful_iff_of_settled (h : Settled layers) (e : Expr) :
    e.Lawful path layers ↔ ∀ n ∈ e.nodes, path.PermitsNode n := by
  have hready : ∀ name, Layers.Ready layers name := fun name l hl _ => by simp [h l hl]
  simp [Expr.Lawful, Path.Admits, hready]

/-- The initializer of a variable that is not global does not read the variable. -/
theorem lawful_await_iff (name : String) (e : Expr) :
    e.Lawful path (Layers.await name layers) ↔
      (∀ n ∈ e.nodes, path.PermitsNode n) ∧
        (layers ≠ [] → ∀ id other, .var id other ∈ e.nodes → other.lexeme ≠ name) := by
  have hready : ∀ other, Layers.Ready (Layers.await name layers) other ↔
      (layers ≠ [] → other ≠ name) := by
    intro other
    cases layers with
    | nil => simp [Layers.Ready, Layers.await]
    | cons l outer =>
      simp only [Layers.Ready, Layers.await, List.head?_cons, Option.mem_some_iff, forall_eq',
        List.mem_cons, Option.some.injEq, ne_eq, List.cons_ne_nil, not_false_eq_true, true_imp_iff]
      exact ⟨fun h heq => h (.inl heq) heq.symm, fun h _ heq => h heq.symm⟩
  simp only [Expr.Lawful, Path.Admits, hready, forall_and]
  refine and_congr_right fun _ => ⟨fun h hlayers id other hn => ?_, fun h n hn id other heq hl => ?_⟩
  · exact h _ hn id other rfl hlayers
  · exact h hl id other (heq ▸ hn)

/-! ## Statements -/

theorem abides_params (ps : List Token) (hps : ∀ p ∈ ps, p.IsName) (l : Layer)
    (hl : l.pending = none) :
    (params ps).Abides (l :: layers)
      ({ l with names := (ps.map Token.lexeme).reverse ++ l.names } :: layers) []
      (Layers.Fits (l :: layers) (ps.map Token.lexeme)) := by
  induction ps generalizing l with
  | nil => exact abides_pure.congr (by simp)
  | cons p ps ih =>
    obtain ⟨hp, hps⟩ := List.forall_mem_cons.1 hps
    have hw := ih hps { l with names := p.lexeme :: l.names, pending := none } rfl
    have hnames : (ps.map Token.lexeme).reverse ++ p.lexeme :: l.names =
        ((p :: ps).map Token.lexeme).reverse ++ l.names := by simp
    rw [hnames] at hw
    rw [hl]
    refine (abides_declare_define hp (by simpa [Settled] using hl) hw).congr ?_
    rw [List.map_cons, Layers.fits_cons_iff]
    rfl

/-- The rule for a superclass is that it is not the class itself. -/
theorem abides_superclassClause {ctx : Context} {cls : ClassRole} {o : Option Expr}
    (ho : Expr.SuperclassWellFormed o) :
    (superclassClause ctx name o).Abides (Layers.await name.lexeme layers)
      (Layers.await name.lexeme layers)
      (Expr.optionVisits cls (Layers.await name.lexeme layers) o)
      (∀ id superName, o = some (.var id superName) → superName.lexeme ≠ name.lexeme) := by
  cases o with
  | none => exact abides_pure.congr (by simp)
  | some e =>
    cases e with
    | var id superName =>
      unfold superclassClause
      simp only
      split
      case isTrue heq => exact (abides_report_bind rfl).congr (by simpa using heq)
      case isFalse hne =>
        have hne : superName.lexeme ≠ name.lexeme := by simpa using hne
        refine abides_read.congr (iff_of_true ?_ (by simpa using hne))
        cases layers with
        | nil => simp [Layers.Ready, Layers.await]
        | cons l outer => simp [Layers.Ready, Layers.await, Ne.symm hne]
    | _ => exact ho.elim

theorem abides_returnRules :
    (returnRules path.context keyword value).Abides layers layers [] (path.PermitsReturn value) := by
  rw [Path.permitsReturn_iff]
  have hfunction : path.context.function = path.functionRole := rfl
  have hvalue : (if value.isSome && path.context.function = .initializer then
      report keyword .returnValueFromInitializer else pure () : Walk Unit).Abides layers layers []
        (value.isSome → path.functionRole ≠ .initializer) := by
    split
    case isTrue h => exact abides_report.congr (by simpa [hfunction] using h)
    case isFalse h => exact abides_pure.congr (by simpa [hfunction] using h)
  unfold returnRules
  simp only
  split
  case isTrue h => exact (abides_report_bind rfl).congr (by simp [← hfunction, h])
  case isFalse h => exact hvalue.congr (by simp [← hfunction, h])

theorem abides_withSuper (decl : ClassDecl) {token : Token} {law : Prop}
    (hw : w.Abides (decl.layers layers) (decl.layers layers) vs law) :
    (withSuper token decl.superclass w).Abides (Layers.declare decl.name.lexeme layers)
      (Layers.declare decl.name.lexeme layers) vs law := by
  obtain ⟨name, superclass, ms, ss⟩ := decl
  cases superclass with
  | none => exact hw
  | some e =>
    have hprovide : (provide "super" token).Abides
        ({ region := .superclass ⟨name, some e, ms, ss⟩ } :: Layers.declare name.lexeme layers)
        (ClassDecl.layers ⟨name, some e, ms, ss⟩ layers) [] True := abides_provide rfl (.inr rfl)
    exact (Abides.inScope rfl (hprovide.silent_bind hw)).congr (by simp [Layer.superclass])

theorem abides_withThis {token : Token} {law : Prop}
    (hw : w.Abides ({ region := .block [], names := ["this"] } :: layers)
      ({ region := .block [], names := ["this"] } :: layers) vs law) :
    (withThis token w).Abides layers layers vs law := by
  have hprovide : (provide "this" token).Abides ({ region := .block [] } :: layers)
      ({ region := .block [], names := ["this"] } :: layers) [] True := abides_provide rfl (.inl rfl)
  exact (Abides.inScope rfl (hprovide.silent_bind hw)).congr (by simp)

end Resolution

theorem Stmts.isName_declared {ss : List Stmt} (hss : Stmts.WellFormed ss) :
    ∀ x ∈ Stmts.declared ss, x ≠ "this" ∧ x ≠ "super" := by
  intro x hx
  obtain ⟨name, hname, rfl⟩ := List.mem_map.1 hx
  obtain ⟨s, hs, hdeclared⟩ := List.mem_filterMap.1 hname
  exact (Stmts.wellFormed_iff.1 hss s hs).isName_declared hdeclared

/-- What is asked of a function: its statements are permitted where they stand, and so are the
names of its scope. -/
def FunctionDecl.Lawful (path : Path) (f : FunctionDecl) : Prop :=
  (∀ p ∈ f.parts path, p.1.Permits p.2) ∧ (Region.call f).Proper

/-- What is asked of a statement: it and those inside it are permitted where they stand, and the
name that it declares is new. -/
def Stmt.Lawful (path : Path) (layers : List Layer) (s : Stmt) : Prop :=
  (∀ p ∈ s.parts path, p.1.Permits p.2) ∧ Layers.Fits layers (Stmts.declared [s])

def Stmts.Lawful (path : Path) (layers : List Layer) (ss : List Stmt) : Prop :=
  (∀ p ∈ Stmts.parts path ss, p.1.Permits p.2) ∧ Layers.Fits layers (Stmts.declared ss)

theorem Stmts.lawful_cons_iff {path : Path} {layers : List Layer} {ss : List Stmt} :
    Stmts.Lawful path layers (s :: ss) ↔
      s.Lawful path layers ∧ Stmts.Lawful path (Layers.after layers s) ss := by
  rw [Stmts.Lawful, Layers.fits_declared_cons_iff, Stmts.parts, List.forall_mem_append,
    and_and_and_comm]
  rfl

/-- A statement that declares nothing. -/
theorem Stmt.lawful_iff_of_declares_none {path : Path} {layers : List Layer}
    (hs : s.declared? = none) : s.Lawful path layers ↔ ∀ p ∈ s.parts path, p.1.Permits p.2 := by
  simp [Stmt.Lawful, Stmts.declared, hs]

/-- A statement that declares nothing leaves the scopes as they are. -/
theorem Walk.Abides.branch {layers : List Layer} {path : Path}
    (h : w.Abides layers (Layers.after layers s) vs (s.Lawful path layers))
    (hs : s.declared? = none) :
    w.Abides layers layers vs (∀ p ∈ s.parts path, p.1.Permits p.2) := by
  rw [Layers.after, hs] at h
  exact h.congr (Stmt.lawful_iff_of_declares_none hs)

namespace Path

variable {path : Path}

theorem permits_expression_iff {e : Expr} :
    path.Permits (.expression e) ↔ ∀ n ∈ e.nodes, path.PermitsNode n := by
  simp [permits_iff, Stmt.expressions, Stmt.regions]

theorem permits_print_iff {e : Expr} :
    path.Permits (.print e) ↔ ∀ n ∈ e.nodes, path.PermitsNode n := by
  simp [permits_iff, Stmt.expressions, Stmt.regions]

theorem permits_ifThen_iff {a : Stmt} :
    path.Permits (.ifThen c a) ↔ ∀ n ∈ c.nodes, path.PermitsNode n := by
  simp [permits_iff, Stmt.expressions, Stmt.regions]

theorem permits_ifElse_iff {a b : Stmt} :
    path.Permits (.ifElse c a b) ↔ ∀ n ∈ c.nodes, path.PermitsNode n := by
  simp [permits_iff, Stmt.expressions, Stmt.regions]

theorem permits_whileLoop_iff {body : Stmt} :
    path.Permits (.whileLoop c body) ↔ ∀ n ∈ c.nodes, path.PermitsNode n := by
  simp [permits_iff, Stmt.expressions, Stmt.regions]

theorem permits_varDecl_iff : path.Permits (.varDecl name value) ↔
      ∀ e ∈ value, (∀ n ∈ e.nodes, path.PermitsNode n) ∧
        (path ≠ [] → ∀ id other, .var id other ∈ e.nodes → other.lexeme ≠ name.lexeme) := by
  cases value with
  | none => simp [permits_iff, Stmt.expressions, Stmt.regions]
  | some e => simp [permits_iff, Stmt.expressions, Stmt.regions]

theorem permits_returnWith_iff : path.Permits (.returnWith keyword value) ↔
      path.PermitsReturn value ∧ ∀ e ∈ value, ∀ n ∈ e.nodes, path.PermitsNode n := by
  simp [permits_iff, Stmt.expressions, Stmt.regions]

theorem permits_block_iff {body : List Stmt} :
    path.Permits (.block body) ↔ (Region.block body).Proper := by
  simp [permits_iff, Stmt.expressions, Stmt.regions, Region.Proper]

theorem permits_funDecl_iff {decl : FunctionDecl} :
    path.Permits (.funDecl decl) ↔ (Region.call decl).Proper := by
  simp [permits_iff, Stmt.expressions, Stmt.regions, Region.Proper]

/-- The rules for a class are those for its superclass clause and for the scopes of its members. -/
theorem permits_classDecl_iff (path : Path) (decl : ClassDecl)
    (h : Expr.SuperclassWellFormed decl.superclass) :
    path.Permits (.classDecl decl) ↔
      (∀ id name, decl.superclass = some (.var id name) → name.lexeme ≠ decl.name.lexeme) ∧
        (∀ m ∈ decl.statics, (Region.call m).Proper) ∧
        ∀ m ∈ decl.methods, (Region.call m).Proper := by
  have hnodes : ∀ e ∈ decl.superclass, ∀ n ∈ e.nodes, path.PermitsNode n := by
    intro e he n hn
    rw [Option.mem_def.1 he] at h
    cases e with
    | var id name =>
      obtain rfl := List.mem_singleton.1 hn
      trivial
    | _ => exact h.elim
  have hregions : (∀ region ∈ (Stmt.classDecl decl).regions, region.Proper) ↔
      (∀ m ∈ decl.statics, (Region.call m).Proper) ∧ ∀ m ∈ decl.methods, (Region.call m).Proper := by
    simp only [Stmt.regions, List.forall_mem_map, List.forall_mem_append]
  rw [← hregions]
  constructor
  · intro hpermits
    exact ⟨fun id name => hpermits.ancestry decl id name rfl,
      fun region hr => ⟨hpermits.distinct region hr, hpermits.read region hr⟩⟩
  · rintro ⟨hancestry, hproper⟩
    refine ⟨by simp, ?_, ?_, by simp, fun region hr => (hproper region hr).1,
      fun region hr => (hproper region hr).2⟩
    · exact fun e he => hnodes e (by simpa [Stmt.expressions] using he)
    · rintro _ id name ⟨⟩
      exact hancestry id name

end Path

namespace Resolution

open Walk

mutual

/-- The walk reports nothing if and only if the statement and its parts are lawful. -/
theorem abides_stmt (path : Path) (layers : List Layer) (s : Stmt) (hs : s.WellFormed)
    (hlayers : Settled layers) (hpath : path = [] ↔ layers = []) :
    (stmt path.context s).Abides layers (Layers.after layers s) (s.visits path.classRole layers)
      (s.Lawful path layers) := by
  cases s with
  | expression e =>
    refine (abides_expr e hs).congr ?_
    rw [lawful_iff_of_settled hlayers, Stmt.lawful_iff_of_declares_none rfl, Stmt.parts,
      List.forall_mem_singleton, Path.permits_expression_iff]
  | print e =>
    refine (abides_expr e hs).congr ?_
    rw [lawful_iff_of_settled hlayers, Stmt.lawful_iff_of_declares_none rfl, Stmt.parts,
      List.forall_mem_singleton, Path.permits_print_iff]
  | varDecl name value =>
    refine ((abides_declare hs.1 hlayers).silent_bind
      ((abides_optional value hs.2).bind_silent (abides_define hlayers))).congr ?_
    rw [Stmt.Lawful, Stmt.parts, List.forall_mem_singleton, Path.permits_varDecl_iff, and_comm,
      and_true, ← Layers.fits_singleton_iff]
    simp only [lawful_await_iff, ne_eq, hpath]
    rfl
  | block body =>
    have hsettled : Settled (.block body :: layers) := by simp [Settled, Layer.block]
    have hbody := abides_stmts (.block :: path) (.block body :: layers) body hs hsettled (by simp)
    have hnone : (pure () : Walk Unit).Abides (.block body :: layers) (.block body :: layers) []
        (Layers.Fits (.block body :: layers) []) := abides_pure.congr (by simp)
    refine (Abides.body (.block body) rfl hnone (by simp [Layer.block]) hbody rfl
      (Stmts.isName_declared hs) (reads_block_iff body _ layers)).congr ?_
    rw [Stmt.lawful_iff_of_declares_none rfl, Stmt.parts, List.forall_mem_cons,
      Path.permits_block_iff, and_comm]
  | ifThen c a =>
    refine ((abides_expr c hs.1).bind
      ((abides_stmt path layers a hs.2.2 hlayers hpath).branch hs.2.1)).congr ?_
    rw [lawful_iff_of_settled hlayers, Stmt.lawful_iff_of_declares_none rfl, Stmt.parts,
      List.forall_mem_cons, Path.permits_ifThen_iff]
  | ifElse c a b =>
    refine ((abides_expr c hs.1).bind
      (((abides_stmt path layers a hs.2.1.2 hlayers hpath).branch hs.2.1.1).bind
      ((abides_stmt path layers b hs.2.2.2 hlayers hpath).branch hs.2.2.1))).congr ?_
    rw [lawful_iff_of_settled hlayers, Stmt.lawful_iff_of_declares_none rfl, Stmt.parts,
      List.forall_mem_cons, List.forall_mem_append, Path.permits_ifElse_iff]
  | whileLoop c body =>
    refine ((abides_expr c hs.1).bind
      ((abides_stmt path layers body hs.2.2 hlayers hpath).branch hs.2.1)).congr ?_
    rw [lawful_iff_of_settled hlayers, Stmt.lawful_iff_of_declares_none rfl, Stmt.parts,
      List.forall_mem_cons, Path.permits_whileLoop_iff]
  | funDecl decl =>
    have hbody := abides_functionBody (.function decl :: path)
      (Layers.declare decl.name.lexeme layers) decl hs (by simp)
    refine (abides_declare_define (FunctionDecl.WellFormed.isName hs) hlayers hbody).congr ?_
    rw [Stmt.Lawful, Stmt.parts, List.forall_mem_cons, Path.permits_funDecl_iff, and_comm,
      ← Layers.fits_singleton_iff, FunctionDecl.Lawful, and_comm (a := ∀ p ∈ _, _)]
    rfl
  | returnWith keyword value =>
    refine (abides_returnRules.silent_bind (abides_optional value hs)).congr ?_
    simp only [lawful_iff_of_settled hlayers]
    rw [Stmt.lawful_iff_of_declares_none rfl, Stmt.parts, List.forall_mem_singleton,
      Path.permits_returnWith_iff]
  | classDecl decl =>
    obtain ⟨name, superclass, ms, ss⟩ := decl
    obtain ⟨hname, hsuper, hms, hss⟩ := hs
    let decl : ClassDecl := ⟨name, superclass, ms, ss⟩
    refine ((abides_declare hname hlayers).silent_bind ((abides_superclassClause hsuper).bind
      ((abides_define hlayers).silent_bind (abides_withSuper decl
        ((abides_statics path path.context decl ss hss).bind
          (abides_withThis (abides_methods path path.context decl ms hms))))))).congr ?_
    have hpermits := Path.permits_classDecl_iff path decl hsuper
    simp only [Stmt.Lawful, Stmt.parts, List.forall_mem_cons, List.forall_mem_append,
      FunctionDecls.forall_parts, FunctionDecl.Lawful, forall_and, ← Layers.fits_singleton_iff]
    constructor
    · rintro ⟨hfits, hancestry, -, ⟨hstatics, hstaticScopes⟩, hmethods, hscopes⟩
      exact ⟨⟨hpermits.2 ⟨hancestry, hstaticScopes, hscopes⟩, hstatics, hmethods⟩, hfits⟩
    · rintro ⟨⟨hdecl, hstatics, hmethods⟩, hfits⟩
      obtain ⟨hancestry, hstaticScopes, hscopes⟩ := hpermits.1 hdecl
      exact ⟨hfits, hancestry, trivial, ⟨hstatics, hstaticScopes⟩, hmethods, hscopes⟩

theorem abides_stmts (path : Path) (layers : List Layer) (ss : List Stmt)
    (hss : Stmts.WellFormed ss) (hlayers : Settled layers) (hpath : path = [] ↔ layers = []) :
    (stmts path.context ss).Abides layers (ss.foldl Layers.after layers)
      (Stmts.visits path.classRole layers ss) (Stmts.Lawful path layers ss) := by
  cases ss with
  | nil => exact abides_pure.congr (by simp [Stmts.Lawful, Stmts.parts, Stmts.declared])
  | cons s ss =>
    have hafter : path = [] ↔ Layers.after layers s = [] := by
      rw [hpath, Layers.after_eq_nil_iff]
    exact ((abides_stmt path layers s hss.1 hlayers hpath).bind
      (abides_stmts path _ ss hss.2 (settled_after hlayers) hafter)).congr Stmts.lawful_cons_iff.symm

theorem abides_functionBody (path : Path) (layers : List Layer) (f : FunctionDecl)
    (hf : f.WellFormed) (hpath : path ≠ []) :
    (functionBody path.context f).Abides layers layers (f.visits path.classRole layers)
      (f.Lawful path) := by
  obtain ⟨name, ps, body⟩ := f
  have hparams : (params ps).Abides ({ region := .call ⟨name, ps, body⟩ } :: layers)
      (.call ⟨name, ps, body⟩ :: layers) []
      (Layers.Fits ({ region := .call ⟨name, ps, body⟩ } :: layers) (ps.map Token.lexeme)) := by
    have h := @abides_params layers ps hf.2.1 { region := .call ⟨name, ps, body⟩ } rfl
    rwa [List.append_nil] at h
  have hsettled : Settled (.call ⟨name, ps, body⟩ :: layers) := by simp [Settled, Layer.call]
  have hbody := abides_stmts path _ body hf.2.2 hsettled (by simp [hpath])
  refine Abides.body (.call ⟨name, ps, body⟩) rfl hparams (by simp [Layer.call]) hbody
    (Region.declares_call _) ?_ (reads_call_iff ⟨name, ps, body⟩ _ layers)
  intro x hx
  rw [Region.declares_call] at hx
  rcases List.mem_append.1 hx with hx | hx
  · obtain ⟨p, hp, rfl⟩ := List.mem_map.1 hx
    exact hf.2.1 p hp
  · exact Stmts.isName_declared hf.2.2 x hx

theorem abides_statics {layers : List Layer} (path : Path) (ctx : Context) (decl : ClassDecl)
    (ms : List FunctionDecl) (hms : FunctionDecls.WellFormed ms) :
    (statics { ctx with cls := .static } ms).Abides layers layers
      (FunctionDecls.staticVisits layers ms)
      (∀ m ∈ ms, m.Lawful (.staticMethod decl m :: path)) := by
  cases ms with
  | nil => exact abides_pure.congr (by simp)
  | cons m ms =>
    have hm := abides_functionBody (.staticMethod decl m :: path) layers m hms.1 (by simp)
    exact (hm.bind (abides_statics path ctx decl ms hms.2)).congr (by simp)

/-- All methods are walked through in one scope, and each is in the scope of its receiver. -/
theorem abides_methods {layers : List Layer} {region : Region} (path : Path) (ctx : Context)
    (decl : ClassDecl) (ms : List FunctionDecl) (hms : FunctionDecls.WellFormed ms) :
    (methods { ctx with cls := decl.role } ms).Abides
      ({ region := region, names := ["this"] } :: layers)
      ({ region := region, names := ["this"] } :: layers)
      (FunctionDecls.methodVisits decl.role layers ms)
      (∀ m ∈ ms, m.Lawful (.method decl m :: path)) := by
  cases ms with
  | nil => exact abides_pure.congr (by simp)
  | cons m ms =>
    have hm := abides_functionBody (.method decl m :: path) (.receiver m :: layers) m hms.1
      (by simp)
    exact ((hm.renameRegion region).bind (abides_methods path ctx decl ms hms.2)).congr (by simp)

end

end Resolution

/-- A walk through a program reports nothing if and only if each statement keeps to the rules. -/
theorem silent_resolve_iff {program : List Stmt} (h : Stmts.WellFormed program) :
    (resolve program).faults = [] ↔ ∀ p ∈ Stmts.parts [] program, p.1.Permits p.2 := by
  have habides := Resolution.abides_stmts [] [] program h (by simp [Walk.Settled]) (by simp)
  refine (habides.2 [] .nil (by simp [Scopes.Regular])).1.trans ?_
  simp [Stmts.Lawful, Layers.Fits]

/-- The names of a program that is read are bound without a report if and only if each of its
statements keeps to the rules of scope where it stands. -/
theorem resolve_parse_faults_eq_nil_iff (tokens : List Token) (h : ∀ t ∈ tokens, t.Spelled)
    (fresh : NodeId) :
    (resolve (parse fresh tokens).statements).faults = [] ↔
      ∀ p ∈ Stmts.parts [] (parse fresh tokens).statements, p.1.Permits p.2 :=
  silent_resolve_iff (wellFormed_parse h fresh)

/-- A program that keeps to the rules, and one that does not: the function reads the global
variable, since the block declares its own one behind it, which is then never read. -/
theorem resolve_parse_faults_eq_nil_iff_shadowed :
    let kept := Lexer.tokensOf (Lexer.scan ("class A { init(x) { this.x = x; } } " ++
      "class B < A { get() { return super.get; } static of(x) { return B(x); } } " ++
      "{ var a = B.of(1); fun f() { return a; } print f(); }"))
    let broken := Lexer.tokensOf (Lexer.scan "var a; { fun f() { return a; } var a = f(); }")
    (∀ p ∈ Stmts.parts [] (parse 0 kept).statements, p.1.Permits p.2) ∧
      ¬ ∀ p ∈ Stmts.parts [] (parse 0 broken).statements, p.1.Permits p.2 := by
  intro kept broken
  have hkept := resolve_parse_faults_eq_nil_iff kept (fun _ => Lexer.spelled_of_mem_tokens) 0
  have hbroken := resolve_parse_faults_eq_nil_iff broken (fun _ => Lexer.spelled_of_mem_tokens) 0
  exact ⟨hkept.1 (by decide +kernel), fun hall => absurd (hbroken.2 hall) (by decide +kernel)⟩

end Lox
