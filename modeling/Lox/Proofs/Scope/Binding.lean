import Lox.Machine.Basic
import Lox.Proofs.Scope.Visits
import Lox.Proofs.Table
import Std.Data.TreeMap.Lemmas

/-!
# The walk binds each node where it stands

The open scopes of the walk through a program agree with the scopes around the code it is at:
they declare the same names, and the same name waits for its initializer. So a walk that
reports nothing finds a binding for each node of the program, and no other ones, and a node
is bound to the innermost scope around it that declares its name before it. What the rules of
scope forbid does not occur.
-/

namespace Lox

variable {name token keyword : Token} {l : Layer} {scopes : List Scope} {w : Walk Unit}
  {f : Unit → Walk Unit} {o : Option Expr} {bs : List Binding}

/-- What a scope knows of a name: whether its initializer is complete, if it is declared. -/
def Scope.status (scope : Scope) (name : String) : Option Bool :=
  (scope.get? name).map Variable.initialized

/-- What a scope should know of a name. -/
def Layer.status (l : Layer) (name : String) : Option Bool :=
  if name ∈ l.names then some (decide (l.pending ≠ some name)) else none

/-- The open scopes of a walk agree with the scopes around code. -/
inductive Mirrors : List Scope → List Layer → Prop
  | nil : Mirrors [] []
  | cons {scope : Scope} {l : Layer} {scopes : List Scope} {layers : List Layer} :
      (∀ name, scope.status name = l.status name) → Mirrors scopes layers →
        Mirrors (scope :: scopes) (l :: layers)

/-- What the rules of scope ask of a node: a name is not read in its own initializer, the
receiver is named in methods only, and the superclass only where there is one. -/
def Visit.Allowed (v : Visit) : Prop :=
  match v.use with
  | .read => ∀ l ∈ v.layers.head?, v.name ∈ l.names → l.pending ≠ some v.name
  | .write => True
  | .receiver => v.cls = .plain ∨ v.cls = .subclass
  | .superclass => v.cls = .subclass

theorem Scope.contains_iff {scope : Scope} {name : String} :
    scope.contains name = true ↔ (scope.status name).isSome := by
  simp [Table.contains, Scope.status]

theorem Layer.status_isSome {name : String} : (l.status name).isSome ↔ name ∈ l.names := by
  unfold Layer.status
  split <;> simp_all

/-- A name is as many scopes out as in the text. -/
theorem Mirrors.depth? {layers : List Layer} (h : Mirrors scopes layers) (name : String) :
    Scopes.depth? scopes name = Layers.depth? layers name := by
  induction h with
  | nil => rfl
  | @cons scope l scopes layers hs _ ih =>
    have hc : scope.contains name = true ↔ name ∈ l.names := by
      rw [Scope.contains_iff, hs name, Layer.status_isSome]
    rw [Layers.depth?_cons, ← ih]
    by_cases hn : name ∈ l.names
    · simp [Scopes.depth?, List.findIdx?_cons, hc.2 hn, hn]
    · have hf : scope.contains name = false := by
        rw [← Bool.not_eq_true, hc]
        exact hn
      simp [Scopes.depth?, List.findIdx?_cons, hf, hn]

/-- Noting that a name is read changes nothing that a scope should know. -/
theorem Mirrors.markUsed {layers : List Layer} (h : Mirrors scopes layers) (name : String) :
    Mirrors (Scopes.markUsed name scopes) layers := by
  induction h with
  | nil => exact .nil
  | @cons scope l scopes layers hs h ih =>
    unfold Scopes.markUsed
    split
    · refine .cons (fun m => ?_) h
      rw [← hs m, Scope.status, Table.get?_modify]
      split
      · simp [Scope.status, Function.comp_def]
      · rfl
    · exact .cons hs ih

/-- What a scope belongs to does not matter to a walk. -/
theorem Mirrors.renameRegion {layers : List Layer} (h : Mirrors scopes (l :: layers))
    (region : Region) : Mirrors scopes ({ l with region := region } :: layers) := by
  obtain _ | ⟨hs, h⟩ := h
  exact .cons hs h

/-! ## Walks -/

/-- From open scopes that agree with `layers`, a walk that reports nothing leaves scopes that
agree with `layers'` and has bound the nodes `vs`, all of which are allowed. -/
def Walk.Follows (w : Walk Unit) (layers layers' : List Layer) (vs : List Visit) : Prop :=
  ∀ scopes, Mirrors scopes layers → (w scopes).findings.faults = [] →
    Mirrors (w scopes).scopes layers' ∧
      (w scopes).findings.bindings = vs.map Visit.binding ∧ ∀ v ∈ vs, v.Allowed

namespace Walk

variable {layers layers₁ layers₂ : List Layer} {vs us : List Visit}

theorem follows_pure : Follows (pure ()) layers layers [] :=
  fun _ h _ => ⟨h, rfl, by simp⟩

/-- One walk and then another. -/
theorem Follows.bind (hw : w.Follows layers layers₁ vs) (hf : (f ()).Follows layers₁ layers₂ us) :
    (w >>= f).Follows layers layers₂ (vs ++ us) := by
  intro scopes h hfaults
  rw [bind_apply] at hfaults ⊢
  simp only [Findings.faults_append, List.append_eq_nil_iff] at hfaults
  obtain ⟨h₁, hb₁, ha₁⟩ := hw scopes h hfaults.1
  obtain ⟨h₂, hb₂, ha₂⟩ := hf _ h₁ hfaults.2
  refine ⟨h₂, by simp [hb₁, hb₂], fun v hv => ?_⟩
  exact (List.mem_append.1 hv).elim (ha₁ v) (ha₂ v)

/-- A walk that binds nothing, and then another. -/
theorem Follows.silent_bind (hw : w.Follows layers layers₁ [])
    (hf : (f ()).Follows layers₁ layers₂ vs) : (w >>= f).Follows layers layers₂ vs :=
  hw.bind hf

/-- A walk, and then one that binds nothing. -/
theorem Follows.bind_silent (hw : w.Follows layers layers₁ vs)
    (hf : (f ()).Follows layers₁ layers₂ []) : (w >>= f).Follows layers layers₂ vs := by
  simpa using hw.bind hf

theorem follows_report {t : Token} {fault : ScopeFault} :
    Follows (report t fault) layers layers₁ vs := by
  intro scopes _ hfaults
  cases hfaults

/-- No name of the innermost scope waits for its initializer. -/
def Settled (layers : List Layer) : Prop := ∀ l ∈ layers.head?, l.pending = none

theorem follows_declare (hlayers : Settled layers) :
    (declare name).Follows layers (Layers.await name.lexeme layers) [] := by
  intro scopes h hfaults
  cases h with
  | nil => exact ⟨.nil, rfl, by simp⟩
  | @cons scope l scopes layers hs h =>
    have hl : l.pending = none := hlayers l rfl
    rw [declare] at hfaults ⊢
    cases hc : scope.contains name.lexeme with
    | true =>
      rw [hc] at hfaults
      cases hfaults
    | false =>
      refine ⟨.cons (fun m => ?_) h, rfl, by simp⟩
      rw [Scope.status, Table.get?_insert]
      by_cases hm : m = name.lexeme
      · simp [Layer.status, hm]
      · rw [if_neg hm, ← Scope.status, hs m]
        simp [Layer.status, hm, hl, Ne.symm hm]

theorem follows_define (hlayers : Settled layers) :
    (define name).Follows (Layers.await name.lexeme layers) (Layers.declare name.lexeme layers)
      [] := by
  intro scopes h _
  cases layers with
  | nil =>
    cases h
    exact ⟨.nil, rfl, by simp⟩
  | cons l layers =>
    obtain _ | @⟨scope, _, scopes, _, hs, h⟩ := h
    refine ⟨.cons (fun m => ?_) h, rfl, by simp⟩
    have hm := hs m
    rw [Scope.status, Table.get?_modify]
    by_cases hn : m = name.lexeme
    · subst hn
      simp only [Layer.status, List.mem_cons_self, if_true] at hm ⊢
      obtain ⟨v, hv, -⟩ := Option.map_eq_some_iff.1 hm
      simp [hv]
    · rw [if_neg hn, ← Scope.status, hm]
      simp [Layer.status, hn, Ne.symm hn]

/-- Declare a name, all at once. -/
theorem follows_declare_define (hlayers : Settled layers)
    (hw : w.Follows (Layers.declare name.lexeme layers) layers₁ vs) :
    (do declare name; define name; w : Walk Unit).Follows layers layers₁ vs :=
  (follows_declare hlayers).silent_bind ((follows_define hlayers).silent_bind hw)

theorem settled_declare {name : String} : Settled (Layers.declare name layers) := by
  cases layers with
  | nil => simp [Settled, Layers.declare]
  | cons l layers => simp [Settled, Layers.declare]

/-- A scope for a walk of its own, of which nothing is left behind. -/
theorem Follows.inScope {w : Walk Unit} {l l' : Layer} (hnames : l.names = [])
    (hw : w.Follows (l :: layers) (l' :: layers₁) vs) :
    (inScope w).Follows layers layers₁ vs := by
  have hopen : openScope.Follows layers (l :: layers) [] := by
    intro scopes h _
    exact ⟨.cons (fun m => by simp [Scope.status, Layer.status, hnames]) h, rfl, by simp⟩
  have hclose : closeScope.Follows (l' :: layers₁) layers₁ [] := by
    intro scopes h _
    obtain _ | @⟨scope, _, scopes, _, hs, h⟩ := h
    exact ⟨h, rfl, by simp⟩
  exact hopen.silent_bind (hw.bind_silent hclose)

theorem Follows.renameRegion (hw : w.Follows (l :: layers) (l :: layers₁) vs) (region : Region) :
    w.Follows ({ l with region := region } :: layers) ({ l with region := region } :: layers₁)
      vs := by
  intro scopes h hfaults
  obtain ⟨h', hrest⟩ := hw scopes (h.renameRegion l.region) hfaults
  exact ⟨h'.renameRegion region, hrest⟩

/-- Statements declare names in the innermost scope only. -/
theorem exists_cons_foldl_after (l : Layer) (layers : List Layer) (ss : List Stmt) :
    ∃ l', ss.foldl Layers.after (l :: layers) = l' :: layers := by
  induction ss generalizing l with
  | nil => exact ⟨l, rfl⟩
  | cons s ss ih =>
    have hs : ∃ l', Layers.after (l :: layers) s = l' :: layers := by
      unfold Layers.after
      split
      · exact ⟨_, rfl⟩
      · exact ⟨_, rfl⟩
    obtain ⟨l', hl'⟩ := hs
    rw [List.foldl_cons, hl']
    exact ih l'

theorem settled_after {s : Stmt} (h : Settled layers) : Settled (Layers.after layers s) := by
  unfold Layers.after
  split
  · exact settled_declare
  · exact h

/-- A statement that declares nothing. -/
theorem Follows.branch {s : Stmt} (h : w.Follows layers (Layers.after layers s) vs)
    (hs : s.declared? = none) : w.Follows layers layers vs := by
  rwa [Layers.after, hs] at h

/-- The statements of a block or a function, in a scope of their own. -/
theorem Follows.body {w' : Walk Unit} {l' : Layer} {ss : List Stmt} (hl : l.names = [])
    (hw : w.Follows (l :: layers) (l' :: layers) [])
    (hw' : w'.Follows (l' :: layers) (ss.foldl Layers.after (l' :: layers)) vs) :
    (Walk.inScope do w; w').Follows layers layers vs := by
  obtain ⟨l'', hl''⟩ := exists_cons_foldl_after l' layers ss
  rw [hl''] at hw'
  exact Follows.inScope hl (hw.silent_bind hw')

theorem follows_provide {name : String} (hl : l.pending = none) :
    (provide name token).Follows (l :: layers) ({ l with names := name :: l.names } :: layers)
      [] := by
  intro scopes h _
  obtain _ | @⟨scope, _, scopes, _, hs, h⟩ := h
  refine ⟨.cons (fun m => ?_) h, rfl, by simp⟩
  rw [Scope.status, Table.get?_insert]
  by_cases hm : m = name
  · simp [Layer.status, hm, hl]
  · rw [if_neg hm, ← Scope.status, hs m]
    simp [Layer.status, hm]

theorem follows_bindNode {id : NodeId} {v : Visit} (hid : v.id = id) (hname : v.name = name.lexeme)
    (hlayers : v.layers = layers) (hv : v.Allowed) :
    (bindNode id name).Follows layers layers [v] := by
  intro scopes h _
  refine ⟨h, ?_, by simpa using hv⟩
  simp [bindNode, Visit.binding, hid, hname, hlayers, h.depth?]

theorem follows_bindRead {id : NodeId} {v : Visit} (hid : v.id = id) (hname : v.name = name.lexeme)
    (hlayers : v.layers = layers) (hv : v.Allowed) : (bindRead id name).Follows layers layers [v] :=
  (follows_bindNode hid hname hlayers hv).bind_silent fun _ h _ => ⟨h.markUsed _, rfl, by simp⟩

end Walk

/-! ## Programs -/

namespace Resolution

variable {ctx : Context} {layers : List Layer}

open Walk

variable {id : NodeId}

/-- A read that is not reported is bound where the scopes say. -/
theorem follows_read {cls : ClassRole} :
    (read id name).Follows layers layers [⟨id, name.lexeme, .read, cls, layers⟩] := by
  intro scopes h hfaults
  have hpending : (inInitializer name.lexeme scopes).value = false := by
    cases hp : (inInitializer name.lexeme scopes).value with
    | false => rfl
    | true =>
      rw [read, bind_apply, hp] at hfaults
      cases hfaults
  have hallowed : Visit.Allowed ⟨id, name.lexeme, .read, cls, layers⟩ := by
    intro l hl hmem
    cases h with
    | nil => cases hl
    | @cons scope _ scopes layers hs h =>
      obtain rfl := Option.some.inj hl
      have hstatus := hs name.lexeme
      rw [Layer.status, if_pos hmem] at hstatus
      obtain ⟨v, hv, hinit⟩ := Option.map_eq_some_iff.1 hstatus
      simpa [inInitializer, hv, hinit] using hpending
  have hw : (bindRead id name).Follows layers layers [⟨id, name.lexeme, .read, cls, layers⟩] :=
    follows_bindRead rfl rfl rfl hallowed
  rw [read, bind_apply, hpending] at hfaults ⊢
  exact hw scopes h hfaults

theorem follows_receiver : (receiver ctx id keyword).Follows layers layers
      [⟨id, keyword.lexeme, .receiver, ctx.cls, layers⟩] := by
  unfold receiver
  split
  case h_1 => exact follows_report
  case h_2 => exact follows_report
  case h_3 h => exact follows_bindRead rfl rfl rfl (.inl h)
  case h_4 h => exact follows_bindRead rfl rfl rfl (.inr h)

theorem follows_superclass : (superclass ctx id keyword).Follows layers layers
      [⟨id, keyword.lexeme, .superclass, ctx.cls, layers⟩] := by
  unfold superclass
  split
  case h_1 => exact follows_report
  case h_2 => exact follows_report
  case h_3 => exact follows_report
  case h_4 h => exact follows_bindRead rfl rfl rfl h

mutual

theorem follows_expr (e : Expr) : (expr ctx e).Follows layers layers (e.visits ctx.cls layers) := by
  cases e with
  | literal => exact follows_pure
  | grouping inner => exact follows_expr inner
  | unary op operand => exact follows_expr operand
  | binary left op right => exact (follows_expr left).bind (follows_expr right)
  | logical left op right => exact (follows_expr left).bind (follows_expr right)
  | conditional c a b =>
    exact (follows_expr c).bind ((follows_expr a).bind (follows_expr b))
  | var id name => exact follows_read
  | assign id name value =>
    exact (follows_expr value).bind (follows_bindNode rfl rfl rfl trivial)
  | call callee paren arguments => exact (follows_expr callee).bind (follows_exprs arguments)
  | get object name => exact follows_expr object
  | set object name value => exact (follows_expr value).bind (follows_expr object)
  | thisRef id keyword => exact follows_receiver
  | superRef id keyword method => exact follows_superclass

theorem follows_exprs (es : List Expr) :
    (exprs ctx es).Follows layers layers (Exprs.visits ctx.cls layers es) := by
  cases es with
  | nil => exact follows_pure
  | cons e es => exact (follows_expr e).bind (follows_exprs es)

end

theorem follows_optional (o : Option Expr) :
    (optional ctx o).Follows layers layers (Expr.optionVisits ctx.cls layers o) := by
  cases o with
  | none => exact follows_pure
  | some e => exact follows_expr e

theorem follows_params (ps : List Token) (l : Layer) (hl : l.pending = none) :
    (params ps).Follows (l :: layers)
      ({ l with names := (ps.map Token.lexeme).reverse ++ l.names } :: layers) [] := by
  induction ps generalizing l with
  | nil => exact follows_pure
  | cons p ps ih =>
    have hw := ih { l with names := p.lexeme :: l.names, pending := none } rfl
    have hnames : (ps.map Token.lexeme).reverse ++ p.lexeme :: l.names =
        ((p :: ps).map Token.lexeme).reverse ++ l.names := by simp
    rw [hnames] at hw
    rw [hl]
    exact follows_declare_define (by simpa [Settled] using hl) hw

/-- A superclass is a name, which is read before the class is complete. -/
theorem follows_superclassClause (ho : Expr.SuperclassWellFormed o) :
    (superclassClause ctx name o).Follows layers layers (Expr.optionVisits ctx.cls layers o) := by
  cases o with
  | none => exact follows_pure
  | some e =>
    cases e with
    | var id superName =>
      unfold superclassClause
      simp only
      split
      · exact follows_report.silent_bind follows_read
      · exact follows_read
    | _ => exact ho.elim

theorem follows_returnRules {value : Option Expr} :
    (returnRules ctx keyword value).Follows layers layers [] := by
  have hvalue : (if value.isSome && ctx.function = .initializer then
      report keyword .returnValueFromInitializer else pure () : Walk Unit).Follows layers layers
        [] := by
    split
    · exact follows_report
    · exact follows_pure
  unfold returnRules
  simp only
  split
  · exact follows_report.silent_bind hvalue
  · exact hvalue

/-- A walk in the scopes around the members of a class. -/
theorem follows_withSuper (decl : ClassDecl) {vs : List Visit}
    (hw : w.Follows (decl.layers layers) (decl.layers layers) vs) :
    (withSuper token decl.superclass w).Follows (Layers.declare decl.name.lexeme layers)
      (Layers.declare decl.name.lexeme layers) vs := by
  obtain ⟨name, superclass, ms, ss⟩ := decl
  cases superclass with
  | none => exact hw
  | some e =>
    have hprovide : (provide "super" token).Follows
        ({ region := .superclass ⟨name, some e, ms, ss⟩ } :: Layers.declare name.lexeme layers)
        (ClassDecl.layers ⟨name, some e, ms, ss⟩ layers) [] := follows_provide rfl
    exact Follows.inScope rfl (hprovide.silent_bind hw)

/-- A walk in the scope that names a receiver. What the scope belongs to does not matter. -/
theorem follows_withThis {vs : List Visit}
    (hw : w.Follows ({ region := .block [], names := ["this"] } :: layers)
      ({ region := .block [], names := ["this"] } :: layers) vs) :
    (withThis token w).Follows layers layers vs := by
  have hprovide : (provide "this" token).Follows ({ region := .block [] } :: layers)
      ({ region := .block [], names := ["this"] } :: layers) [] := follows_provide rfl
  exact Follows.inScope rfl (hprovide.silent_bind hw)

mutual

/-- Behind a statement the scopes are as it leaves them, with what it declares. -/
theorem follows_stmt {ctx : Context} {layers : List Layer} (s : Stmt) (hs : s.WellFormed)
    (hlayers : Settled layers) :
    (stmt ctx s).Follows layers (Layers.after layers s) (s.visits ctx.cls layers) := by
  cases s with
  | expression e => exact follows_expr e
  | print e => exact follows_expr e
  | varDecl name value =>
    exact (follows_declare hlayers).silent_bind
      ((follows_optional value).bind_silent (follows_define hlayers))
  | block body =>
    have hsettled : Settled (.block body :: layers) := by simp [Settled, Layer.block]
    exact Follows.body rfl follows_pure (follows_stmts body hs hsettled)
  | ifThen c a => exact (follows_expr c).bind ((follows_stmt a hs.2.2 hlayers).branch hs.2.1)
  | ifElse c a b =>
    exact (follows_expr c).bind (((follows_stmt a hs.2.1.2 hlayers).branch hs.2.1.1).bind
      ((follows_stmt b hs.2.2.2 hlayers).branch hs.2.2.1))
  | whileLoop c body =>
    exact (follows_expr c).bind ((follows_stmt body hs.2.2 hlayers).branch hs.2.1)
  | funDecl decl => exact follows_declare_define hlayers (follows_functionBody decl hs)
  | returnWith keyword value => exact follows_returnRules.silent_bind (follows_optional value)
  | classDecl decl =>
    obtain ⟨name, superclass, ms, ss⟩ := decl
    obtain ⟨-, hsuper, hms, hss⟩ := hs
    refine (follows_declare hlayers).silent_bind ((follows_superclassClause hsuper).bind
      ((follows_define hlayers).silent_bind (follows_withSuper ⟨name, superclass, ms, ss⟩ ?_)))
    exact (follows_statics ss hss rfl).bind (follows_withThis (follows_methods ms hms))

theorem follows_stmts {ctx : Context} {layers : List Layer} (ss : List Stmt)
    (hss : Stmts.WellFormed ss) (hlayers : Settled layers) :
    (stmts ctx ss).Follows layers (ss.foldl Layers.after layers)
      (Stmts.visits ctx.cls layers ss) := by
  cases ss with
  | nil => exact follows_pure
  | cons s ss =>
    exact (follows_stmt s hss.1 hlayers).bind (follows_stmts ss hss.2 (settled_after hlayers))

theorem follows_functionBody {ctx : Context} {layers : List Layer} (f : FunctionDecl)
    (hf : f.WellFormed) : (functionBody ctx f).Follows layers layers (f.visits ctx.cls layers) := by
  obtain ⟨name, ps, body⟩ := f
  have hparams : (params ps).Follows ({ region := .call ⟨name, ps, body⟩ } :: layers)
      (.call ⟨name, ps, body⟩ :: layers) [] := by
    have h := @follows_params layers ps { region := .call ⟨name, ps, body⟩ } rfl
    rwa [List.append_nil] at h
  have hsettled : Settled (.call ⟨name, ps, body⟩ :: layers) := by simp [Settled, Layer.call]
  exact Follows.body rfl hparams (follows_stmts body hf.2.2 hsettled)

theorem follows_statics {ctx : Context} {layers : List Layer} (ms : List FunctionDecl)
    (hms : FunctionDecls.WellFormed ms) (hcls : ctx.cls = .static) :
    (statics ctx ms).Follows layers layers (FunctionDecls.staticVisits layers ms) := by
  cases ms with
  | nil => exact follows_pure
  | cons m ms =>
    have hm : (functionBody { ctx with function := .function } m).Follows layers layers
        (m.visits .static layers) := by
      rw [← hcls]
      exact follows_functionBody m hms.1
    exact hm.bind (follows_statics ms hms.2 hcls)

/-- All methods are walked through in one scope, and each is in the scope of its receiver. -/
theorem follows_methods {ctx : Context} {layers : List Layer} {region : Region}
    (ms : List FunctionDecl) (hms : FunctionDecls.WellFormed ms) :
    (methods ctx ms).Follows ({ region := region, names := ["this"] } :: layers)
      ({ region := region, names := ["this"] } :: layers)
      (FunctionDecls.methodVisits ctx.cls layers ms) := by
  cases ms with
  | nil => exact follows_pure
  | cons m ms =>
    have hm : (functionBody { ctx with function := methodRole m } m).Follows
        (.receiver m :: layers) (.receiver m :: layers)
        (m.visits ctx.cls (.receiver m :: layers)) := follows_functionBody m hms.1
    exact (hm.renameRegion region).bind (follows_methods ms hms.2)

end

end Resolution

/-- A walk through a program that reports nothing finds the binding of each node of the program,
and each node is allowed where it is. -/
theorem resolve_visits {program : List Stmt} (hp : Stmts.WellFormed program)
    (h : (resolve program).faults = []) :
    (resolve program).bindings = (Stmts.visits .outside [] program).map Visit.binding ∧
      ∀ v ∈ Stmts.visits .outside [] program, v.Allowed :=
  (Resolution.follows_stmts program hp (by simp [Walk.Settled]) [] .nil h).2

/-! ## Recorded distances -/

namespace Locals

variable {locals : Locals} {id : Nat}

theorem getElem?_note (b : Binding) :
    (locals.note b)[id]? = if b.id = id then b.depth.or locals[id]? else locals[id]? := by
  unfold note
  cases b.depth with
  | none => simp
  | some d =>
    rw [Std.TreeMap.getElem?_insert]
    by_cases hb : b.id = id
    · simp [hb]
    · rw [if_neg hb, if_neg (by simpa using hb)]

/-- Bindings of other nodes leave a node as it is. -/
theorem getElem?_noteAll_of_ne (h : ∀ b ∈ bs, b.id ≠ id) :
    (locals.noteAll bs)[id]? = locals[id]? := by
  induction bs generalizing locals with
  | nil => rfl
  | cons b bs ih =>
    have hb : b.id ≠ id := h b (by simp)
    calc ((locals.note b).noteAll bs)[id]?
        = (locals.note b)[id]? := ih fun b' hb' => h b' (by simp [hb'])
      _ = locals[id]? := by rw [getElem?_note, if_neg hb]

/-- Bindings that agree on what is recorded already. -/
theorem getElem?_noteAll_of_recorded {d : Option Nat} (h : ∀ b ∈ bs, b.id = id → b.depth = d)
    (hd : locals[id]? = d) : (locals.noteAll bs)[id]? = d := by
  induction bs generalizing locals with
  | nil => exact hd
  | cons b bs ih =>
    refine ih (fun b' hb' => h b' (by simp [hb'])) ?_
    rw [getElem?_note]
    split
    case isTrue hb => rw [h b (by simp) hb, hd, Option.or_self]
    case isFalse => exact hd

/-- Bindings of a node that agree on its distance. -/
theorem getElem?_noteAll {d : Option Nat} (h : ∀ b ∈ bs, b.id = id → b.depth = d)
    (hnone : locals[id]? = none) (hmem : ∃ b ∈ bs, b.id = id) : (locals.noteAll bs)[id]? = d := by
  induction bs generalizing locals with
  | nil => simp at hmem
  | cons b bs ih =>
    have hbs : ∀ b ∈ bs, b.id = id → b.depth = d := fun b' hb' => h b' (by simp [hb'])
    by_cases hb : b.id = id
    · have hd : (locals.note b)[id]? = d := by
        rw [getElem?_note, if_pos hb, h b (by simp) hb, hnone, Option.or_none]
      have hrest : ((locals.note b).noteAll bs)[id]? = d := getElem?_noteAll_of_recorded hbs hd
      exact hrest
    · have hrest : ∃ b ∈ bs, b.id = id := by simpa [hb] using hmem
      refine ih hbs ?_ hrest
      rw [getElem?_note, if_neg hb, hnone]

end Locals

/-- For each node of a program, the distance at which its name is declared is recorded, if
nothing was recorded for its number before. -/
theorem Ranged.getElem?_noteAll {n k : Nat} {vs : List Visit} {locals : Locals}
    (h : Ranged n k vs) (hnew : ∀ id, n ≤ id → locals[id]? = none) (v : Visit) (hv : v ∈ vs) :
    (locals.noteAll (vs.map Visit.binding))[v.id]? = Layers.depth? v.layers v.name := by
  have hagree : ∀ b ∈ vs.map Visit.binding, b.id = v.id →
      b.depth = Layers.depth? v.layers v.name := by
    intro b hb hid
    obtain ⟨v', hv', rfl⟩ := List.mem_map.1 hb
    obtain rfl := h.consistent v' hv' v hv hid
    rfl
  have hmem : ∃ b ∈ vs.map Visit.binding, b.id = v.id := ⟨v.binding, List.mem_map_of_mem hv, rfl⟩
  exact Locals.getElem?_noteAll hagree (hnew v.id (h.bounds v hv).1) hmem

end Lox
