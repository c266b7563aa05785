import Lox.Proofs.Parser.Locality
import Mathlib.Data.List.TakeWhile

/-!
# The rules read no further than needed

Every rule of the grammar only goes forward and answers the same before other tokens, with other
numbers, and with any parsers inside it that agree with its own where one token less is left. So
as many rounds of the rules as there are tokens, and one more, are all the rounds there ever are:
it plays no part what stands below them.
-/

namespace Lox

variable {α : Type}
variable {level : Level} {bottom : Parser Stmt × Parser (Option Stmt)}

namespace Parser

variable {n m k : Nat} {r : Relabeling} {g : α → α} {p p' : Parser α} {closes : α → Prop}

/-! ## Expressions -/

/-- What stands behind an operand, on other lines and with other numbers. -/
def Suffix.relabel (r : Relabeling) : Suffix → Suffix
  | .arguments paren args => .arguments (paren.relabel r) (args.map (Expr.relabel r))
  | .property name => .property (name.relabel r)

theorem relabel_applySuffixes (suffixes : List Suffix) (operand : Expr) :
    (suffixes.foldl Suffix.apply operand).relabel r =
      (suffixes.map (Suffix.relabel r)).foldl Suffix.apply (operand.relabel r) := by
  induction suffixes generalizing operand with
  | nil => rfl
  | cons suffix suffixes ih =>
    rw [List.foldl_cons, ih, List.map_cons, List.foldl_cons]
    cases suffix with
    | arguments paren args => simp only [Suffix.apply, Suffix.relabel, Expr.relabel,
        Exprs.relabel_eq_map]
    | property name => rfl

theorem relabel_applySigns (signs : List Token) (operand : Expr) :
    (signs.foldr Expr.unary operand).relabel r =
      (signs.map (Token.relabel r)).foldr Expr.unary (operand.relabel r) := by
  induction signs with
  | nil => rfl
  | cons sign signs ih => rw [List.foldr_cons, Expr.relabel, ih, List.map_cons, List.foldr_cons]

/-- A level makes the same nodes on other lines and with other numbers. -/
def Level.Uniform (level : Level) (r : Relabeling) : Prop :=
  ∀ left op right, (level.node left op right).relabel r =
    level.node (left.relabel r) (op.relabel r) (right.relabel r)

theorem uniform_levels : ∀ level ∈ levels, level.Uniform r := by
  simp only [levels, List.forall_mem_cons]
  exact ⟨fun _ _ _ => rfl, fun _ _ _ => rfl, fun _ _ _ => rfl, fun _ _ _ => rfl,
    fun _ _ _ => rfl, fun _ _ _ => rfl, nofun⟩

theorem Level.Uniform.relabel_chain {level : Level} (hlevel : level.Uniform r)
    (others : List (Token × Expr)) (first : Expr) :
    (others.foldl (fun left other => level.node left other.1 other.2) first).relabel r =
      (others.map (Prod.map (Token.relabel r) (Expr.relabel r))).foldl
        (fun left other => level.node left other.1 other.2) (first.relabel r) := by
  induction others generalizing first with
  | nil => rfl
  | cons other others ih => rw [List.foldl_cons, ih, hlevel, List.map_cons, List.foldl_cons]; rfl

/-- Statements without those that have a fault. -/
theorem relabel_reduceOption (r : Relabeling) (os : List (Option Stmt)) :
    Stmts.relabel r os.reduceOption = (os.map (Option.map (Stmt.relabel r))).reduceOption := by
  change Stmts.relabel r (os.filterMap id) = (os.map (Option.map (Stmt.relabel r))).filterMap id
  simp [Stmts.relabel_eq_map, List.filterMap_map, List.map_filterMap]

abbrev InStepExpr (n : Nat) (r : Relabeling) (p p' : Parser Expr) : Prop :=
  InStep n r never (Expr.relabel r) p p'

/-- Whether an operand starts with a token. -/
def startsOperand (t : Token) : Bool :=
  match t.kind with
  | .symbol s =>
    [.kwFalse, .kwTrue, .kwNil, .kwSuper, .kwThis, .identifier, .leftParen].contains s
  | _ => true

/-- An operand behind its first token. -/
def operandBehind (expr : Parser Expr) (t : Token) : Parser Expr :=
  match t.kind with
  | .number x => pure (.literal (.number x.toFloat))
  | .string text => pure (.literal (.string text))
  | .symbol .kwFalse => pure (.literal (.bool false))
  | .symbol .kwTrue => pure (.literal (.bool true))
  | .symbol .kwNil => pure (.literal .nil)
  | .symbol .kwSuper => do
    let _ ← expect .dot "'.' after 'super'"
    let method ← expect .identifier "superclass method name"
    pure (.superRef (← freshId) t method)
  | .symbol .kwThis => do pure (.thisRef (← freshId) t)
  | .symbol .identifier => do pure (.var (← freshId) t)
  | _ => do
    let inner ← expr
    let _ ← expect .rightParen "')' after expression"
    pure (.grouping inner)

theorem primary_eq (expr : Parser Expr) :
    primary expr = acceptIf startsOperand >>= fun
      | some t => operandBehind expr t
      | none => reject (.expected "expression") := by
  funext ⟨rest, fresh⟩
  cases rest with
  | nil => rfl
  | cons t rest =>
    obtain ⟨kind, lexeme, line⟩ := t
    cases kind with
    | number x => rfl
    | string text => rfl
    | symbol s => cases s <;> rfl

section Rules

variable {expr expr' : Parser Expr} (h : InStepExpr n r expr expr')
include h

theorem inStep_primary : InStepExpr (n + 1) r (primary expr) (primary expr') := by
  have htest : ByKind startsOperand := by
    refine ⟨?_, fun t u htu => by simp only [startsOperand, htu]⟩
    rintro ⟨kind, lexeme, line⟩ ht
    obtain rfl := Token.is_iff.1 ht
    rfl
  rw [primary_eq, primary_eq]
  refine inStep_acceptIf_bind htest inStep_reject (Nat.le_refl _) fun t => ?_
  simp only [operandBehind, Token.kind_relabel]
  split
  · exact inStep_pure (a := Expr.literal (.number _))
  · exact inStep_pure (a := Expr.literal (.string _))
  · exact inStep_pure (a := Expr.literal (.bool false))
  · exact inStep_pure (a := Expr.literal (.bool true))
  · exact inStep_pure (a := Expr.literal .nil)
  · exact (inStep_expect (by decide)).bind fun _ => (inStep_expect (by decide)).bind fun method =>
      inStep_freshId.bind fun i => inStep_pure (a := Expr.superRef i t method)
  · exact inStep_freshId.bind fun i => inStep_pure (a := Expr.thisRef i t)
  · exact inStep_freshId.bind fun i => inStep_pure (a := Expr.var i t)
  · exact h.bind fun inner => (inStep_expect (by decide)).bind fun _ =>
      inStep_pure (a := Expr.grouping inner)

theorem inStep_arguments :
    InStep n r never (Suffix.relabel r) (arguments expr) (arguments expr') :=
  (inStep_commaList (inStep_limited h)).bind fun args =>
    (inStep_expect (by decide)).bind fun paren => inStep_pure (a := Suffix.arguments paren args)

theorem inStep_suffix :
    InStep (n + 1) r never (Option.map (Suffix.relabel r)) (suffix expr) (suffix expr') := by
  refine inStep_acceptIf_bind (byKind_is (by decide)) ?_ (Nat.le_refl _) fun _ =>
    (inStep_arguments h).map (fun _ => rfl) fun _ h => h
  refine inStep_acceptIf_bind (byKind_is (by decide)) inStep_pure (Nat.le_refl _) fun _ => ?_
  have hname {w : String} : InStep n r never (Suffix.relabel r)
      (Suffix.property <$> expect .identifier w) (Suffix.property <$> expect .identifier w) :=
    (inStep_expect (by decide)).map (fun _ => rfl) fun _ h => h
  exact hname.map (fun _ => rfl) fun _ h => h

theorem repeats_suffix : Repeats fun _ => suffix expr where
  advances _ := advances_acceptIf_bind
    (advances_acceptIf_bind (advances_pure Bool.false_ne_true) fun _ =>
      (forward_expect (by decide)).map.map)
    fun _ => (inStep_arguments h).forward.map
  stops _ _ := rfl

theorem inStep_call : InStepExpr (n + 1) r (call expr) (call expr') := by
  refine (inStep_primary h).bind fun operand =>
    (inStep_many (repeats_suffix h) fun _ => inStep_suffix h).bind fun suffixes => ?_
  rw [← relabel_applySuffixes]
  exact inStep_pure

omit h in
theorem repeats_signs : Repeats fun _ => acceptAny [.bang, .minus] where
  advances _ := advances_acceptIf
  stops _ _ := rfl

theorem inStep_unary : InStepExpr (n + 1) r (unary expr) (unary expr') := by
  refine (inStep_many repeats_signs fun _ => inStep_acceptIf (byKind_any (by decide))).bind
    fun signs => (inStep_call h).bind fun operand => ?_
  rw [← relabel_applySigns]
  exact inStep_pure

theorem repeats_rightOperand : Repeats fun _ => rightOperand level expr where
  advances _ := advances_acceptIf_bind (advances_pure Bool.false_ne_true) fun _ =>
    h.forward.bind fun _ => forward_of_rest fun _ => rfl
  stops _ _ := rfl

theorem inStep_rightOperand (hlevel : level ∈ levels) :
    InStep n r never (Option.map (Prod.map (Token.relabel r) (Expr.relabel r)))
      (rightOperand level expr) (rightOperand level expr') := by
  have hend : ∀ level ∈ levels, .eof ∉ level.operators := by decide
  exact inStep_acceptIf_bind (byKind_any (hend level hlevel)) inStep_pure (Nat.le_succ n)
    fun op => h.bind fun e => inStep_pure (a := some (op, e))

theorem inStep_chain (hlevel : level ∈ levels) :
    InStepExpr n r (chain level expr) (chain level expr') := by
  refine h.bind fun first => (inStep_many (repeats_rightOperand h) fun _ =>
    inStep_rightOperand h hlevel).bind fun others => ?_
  rw [← (uniform_levels level hlevel).relabel_chain]
  exact inStep_pure

/-- The levels from some level on. -/
theorem inStep_levels {ls : List Level} (hls : ∀ level ∈ ls, level ∈ levels) :
    InStepExpr (n + 1) r (ls.foldr chain (unary expr)) (ls.foldr chain (unary expr')) := by
  induction ls with
  | nil => exact inStep_unary h
  | cons level ls ih =>
    obtain ⟨hlevel, hls⟩ := List.forall_mem_cons.1 hls
    exact inStep_chain (ih hls) hlevel

theorem inStep_conditional : InStepExpr (n + 1) r (conditional expr) (conditional expr') := by
  refine (inStep_levels h fun _ h => h).bind fun c => inStep_acceptIf_bind
    (byKind_is (by decide)) inStep_pure (Nat.le_refl _) fun _ => ?_
  exact h.bind fun a => (inStep_expect (by decide)).bind fun _ => h.bind fun b =>
    inStep_pure (a := Expr.conditional c a b)

theorem inStep_coalescing : InStepExpr (n + 1) r (coalescing expr) (coalescing expr') := by
  refine (inStep_conditional h).bind fun left => inStep_acceptIf_bind
    (byKind_is (by decide)) inStep_pure (Nat.le_refl _) fun op => h.bind fun b => ?_
  rw [Token.line_relabel, ← Expr.relabel_coalesce]
  exact inStep_pure

omit h in
theorem inStep_store {target value : Expr} {equals : Token} :
    InStepExpr n r (store target equals value)
      (store (target.relabel r) (equals.relabel r) (value.relabel r)) := by
  cases target with
  | var i name => exact inStep_freshId.bind fun i => inStep_pure (a := Expr.assign i name value)
  | get object name => exact inStep_pure (a := Expr.set object name value)
  | _ => exact inStep_report.bind fun _ => inStep_pure

/-- One round of the rules of expressions. -/
theorem inStep_assignment : InStepExpr (n + 1) r (assignment expr) (assignment expr') :=
  (inStep_coalescing h).bind fun _ => inStep_acceptIf_bind (byKind_is (by decide)) inStep_pure
    (Nat.le_refl _) fun _ => h.bind fun _ => inStep_store

end Rules

theorem expressionUpTo_eq_iterate (budget : List Token) :
    expressionUpTo budget = assignment^[budget.length + 1] giveUp := by
  induction budget with
  | nil => rfl
  | cons t budget ih => rw [List.length_cons, Function.iterate_succ_apply', ← ih]; rfl

theorem forward_expressionUpTo (budget : List Token) : Forward (expressionUpTo budget) := by
  have hround : ∀ expr : Parser Expr, expr.Forward → (assignment expr).Forward :=
    fun expr hexpr => (inStep_assignment (hexpr.inStep : InStepExpr 0 .erase expr expr)).forward
  induction budget with
  | nil => exact hround giveUp forward_giveUp
  | cons t budget ih => exact hround _ ih

/-- What stands below as many rounds as there are tokens, and one more, is never asked. -/
theorem inStep_expressionUpTo {bottom : Parser Expr} {rounds : Nat} {budget : List Token}
    (hbudget : m ≤ budget.length + 1) (hrounds : m ≤ rounds) :
    InStepExpr m r (expressionUpTo budget) (assignment^[rounds] bottom) := by
  induction rounds generalizing m budget with
  | zero =>
    obtain rfl := Nat.le_zero.1 hrounds
    exact (forward_expressionUpTo budget).inStep
  | succ rounds ih =>
    rw [Function.iterate_succ_apply']
    cases m with
    | zero => exact (forward_expressionUpTo budget).inStep
    | succ m =>
      cases budget with
      | nil =>
        obtain rfl : m = 0 := by simpa using hbudget
        exact inStep_assignment forward_giveUp.inStep
      | cons t budget => exact inStep_assignment (ih (by simpa using hbudget) (by omega))

theorem inStep_expression_rounds {bottom : Parser Expr} :
    InStepExpr n r expression (assignment^[n] bottom) :=
  inStep_ofBudget fun _ _ hn hbudget => inStep_expressionUpTo hbudget hn

theorem inStep_expression : InStepExpr n r expression expression := by
  refine inStep_toBudget (fun c => forward_expressionUpTo c.rest c) fun budget m _ hbudget => ?_
  rw [expressionUpTo_eq_iterate]
  exact inStep_expression_rounds.mono hbudget

/-! ## Statements -/

/-- What ends with a semicolon closes. -/
theorem inStep_terminated {what : String} (h : InStep n r never g p p') :
    InStep n r closes g (terminated p what) (terminated p' what) :=
  h.bind_expect (by decide) fun _ _ => inStep_pure

theorem advances_terminated {what : String} {P : α → Prop} (h : p.Forward) :
    Advances P (terminated p what) :=
  .after h fun _ => advances_expect.bind fun _ => forward_of_rest fun _ => rfl

theorem inStep_some_expression :
    InStep n r never (Option.map (Expr.relabel r)) (some <$> expression)
      (some <$> expression) :=
  inStep_expression.map (fun _ => rfl) fun _ h => h

theorem inStep_expressionUnless {s : Symbol} :
    InStep n r never (Option.map (Expr.relabel r)) (expressionUnless s)
      (expressionUnless s) := by
  refine inStep_check.bind fun b => ?_
  cases b with
  | true => exact inStep_pure (a := none)
  | false => exact inStep_some_expression

abbrev InStepStmt (n : Nat) (r : Relabeling) (p p' : Parser Stmt) : Prop :=
  InStep n r always (Stmt.relabel r) p p'

theorem inStep_expressionStatement : InStepStmt n r expressionStatement expressionStatement :=
  (inStep_terminated inStep_expression).map (fun _ => rfl) fun _ h => h

theorem advances_expressionStatement {P : Stmt → Prop} : Advances P expressionStatement :=
  Advances.bind (advances_terminated (inStep_expression (n := 0) (r := .erase)).forward) fun _ =>
    forward_of_rest fun _ => rfl

theorem inStep_initializer :
    InStep n r never (Option.map (Expr.relabel r)) initializer initializer :=
  inStep_acceptIf_bind (byKind_is (by decide)) inStep_pure (Nat.le_succ n) fun _ =>
    inStep_some_expression

theorem inStep_varDecl : InStepStmt n r varDecl varDecl :=
  (inStep_expect (by decide)).next fun name => (inStep_terminated inStep_initializer).next
    fun value => inStep_pure (a := Stmt.varDecl name value)

/-- An item of a block or of a class: there is none where a brace closes it, or at the end. -/
def beforeBrace (item : Parser (Option α)) : Parser (Option α) := do
  if (← check .rightBrace) || (← atEnd) then pure none else item

theorem beforeBrace_apply (item : Parser (Option α)) (c : Cursor) :
    beforeBrace item c =
      if c.peek.is .rightBrace || c.atEnd then ⟨some none, c, []⟩ else item c := by
  simp only [beforeBrace, bind_apply, check, atEnd]
  split <;> rfl

theorem inStep_beforeBrace {item item' : Parser (Option α)}
    (h : InStep n r never (Option.map g) item item') :
    InStep n r never (Option.map g) (beforeBrace item) (beforeBrace item') := by
  refine inStep_check.bind fun b => inStep_atEnd.bind fun b' => ?_
  simp only [id]
  split
  · exact inStep_pure
  · exact h

theorem repeats_beforeBrace {item : Parser (Option α)}
    (h : ∀ c a, c.atEnd = false → (item c).result = some (some a) →
      (item c).cursor.rest.length < c.rest.length) :
    Repeats fun _ => beforeBrace item := by
  refine ⟨fun _ c o ho hsome => ?_, fun _ _ => rfl⟩
  obtain ⟨a, rfl⟩ := Option.isSome_iff_exists.1 hsome
  simp only [beforeBrace_apply] at ho ⊢
  split at ho
  · cases ho
  · rename_i hopen
    rw [if_neg hopen]
    refine h c a ?_ ho
    cases hend : c.atEnd with
    | false => rfl
    | true => exact absurd (Bool.or_eq_true_iff.2 (.inr hend)) hopen

/-- Declarations in step, where one that does not stand at the end takes a token. -/
structure InStepDecl (n : Nat) (r : Relabeling) (decl decl' : Parser (Option Stmt)) : Prop where
  inStep : InStep n r (fun o => o.isSome = true) (Option.map (Stmt.relabel r)) decl decl'
  advances : ∀ c o, c.atEnd = false → (decl c).result = some o →
    (decl c).cursor.rest.length < c.rest.length

section Rules

variable {stmt stmt' : Parser Stmt} {decl decl' : Parser (Option Stmt)}

section Declarations

variable (h : InStepDecl n r decl decl')
include h

theorem repeats_blockItem : Repeats fun _ => beforeBrace (some <$> decl) := by
  refine repeats_beforeBrace fun c o hend ho => ?_
  simp only [map_apply] at ho ⊢
  obtain ⟨o, ho, -⟩ := Option.map_eq_some_iff.1 ho
  exact h.advances c o hend ho

theorem inStep_blockItem :
    InStep n r never (Option.map (Option.map (Stmt.relabel r))) (beforeBrace (some <$> decl))
      (beforeBrace (some <$> decl')) :=
  inStep_beforeBrace (h.inStep.map (fun _ => rfl) fun _ h => h.elim)

theorem inStep_block : InStep n r always (Stmts.relabel r) (block decl) (block decl') := by
  refine (inStep_many (repeats_blockItem h) fun _ => inStep_blockItem h).bind_expect (by decide)
    fun os _ => ?_
  rw [← relabel_reduceOption]
  exact inStep_pure

theorem inStep_function {kind : String} :
    InStep n r always (FunctionDecl.relabel r) (function kind decl) (function kind decl') :=
  (inStep_expect (by decide)).next fun name => (inStep_expect (by decide)).next fun _ =>
    (inStep_commaList (inStep_limited (inStep_expect (by decide)))).bind_expect (by decide)
      fun params _ => (inStep_expect (by decide)).next fun _ =>
        (inStep_block h).next fun body => inStep_pure (a := (⟨name, params, body⟩ : FunctionDecl))

theorem advances_function {kind : String} {P : FunctionDecl → Prop} :
    Advances P (function kind decl) := by
  have hparams : (commaList (limited (.tooManyParameters maxArity)
      (expect .identifier "parameter name"))).Forward :=
    (inStep_commaList (n := 0) (r := .erase) (inStep_limited (inStep_expect (by decide)))).forward
  exact advances_expect.bind fun _ => (forward_expect (by decide)).bind fun _ =>
    hparams.bind fun _ => (forward_expect (by decide)).bind fun _ =>
      (forward_expect (by decide)).bind fun _ => (inStep_block h).forward.bind fun _ =>
        forward_of_rest fun _ => rfl

omit h in
theorem inStep_superclass :
    InStep n r never (Option.map (Expr.relabel r)) superclass superclass :=
  inStep_acceptIf_bind (byKind_is (by decide)) inStep_pure (Nat.le_succ n) fun _ =>
    (inStep_expect (by decide)).bind fun name => inStep_freshId.bind fun i =>
      inStep_pure (a := some (Expr.var i name))

/-- A method and whether it is static. -/
theorem inStep_method :
    InStep n r never (Option.map (Prod.map id (FunctionDecl.relabel r)))
      (do let isStatic ← accept .kwStatic
          let method ← function "method" decl
          pure (some (isStatic.isSome, method)))
      (do let isStatic ← accept .kwStatic
          let method ← function "method" decl'
          pure (some (isStatic.isSome, method))) :=
  (inStep_acceptIf (byKind_is (by decide))).unclosed.bind fun o => by
    rw [Option.isSome_map]
    exact (inStep_function h).next fun f => inStep_pure (a := some (o.isSome, f))

theorem repeats_member : Repeats fun _ => member decl := by
  refine repeats_beforeBrace fun c a _ ha => ?_
  exact Advances.after (P := fun _ => True) (forward_acceptIf (byKind_is (by decide)))
    (fun _ => (advances_function h).bind fun _ => forward_of_rest fun _ => rfl) c _ ha trivial

theorem inStep_classDecl : InStepStmt n r (classDecl decl) (classDecl decl') := by
  refine (inStep_expect (by decide)).next fun name => inStep_superclass.bind_expect (by decide)
    fun super _ => (inStep_many (repeats_member h) fun _ =>
      inStep_beforeBrace (inStep_method h)).bind_expect (by decide) fun members _ => ?_
  have hselect : ∀ test : Bool → Bool,
      ((members.map (Prod.map id (FunctionDecl.relabel r))).filter
          fun m => test m.1).map Prod.snd =
        FunctionDecls.relabel r ((members.filter fun m => test m.1).map Prod.snd) := by
    intro test
    simp only [FunctionDecls.relabel_eq_map, List.filter_map, List.map_map, Function.comp_def,
      Prod.map, id]
  simp only [hselect not, hselect fun b => b]
  exact inStep_pure (a := Stmt.classDecl ⟨name, super, _, _⟩)

end Declarations

theorem inStep_forInitializer :
    InStep n r always (Option.map (Stmt.relabel r)) forInitializer forInitializer := by
  have hadvances : Advances always (some <$> expressionStatement) :=
    advances_expressionStatement.bind fun _ => forward_of_rest fun _ => rfl
  refine inStep_acceptIf_bind_closing (byKind_is (by decide)) ?_
    (advances_acceptIf_bind hadvances fun _ => (inStep_varDecl (n := 0) (r := r)).forward.map)
    (Nat.le_succ n) fun _ => inStep_pure (a := none)
  exact inStep_acceptIf_bind_closing (byKind_is (by decide))
    (inStep_expressionStatement.map (fun _ => rfl) fun _ h => h) hadvances (Nat.le_succ n) fun _ =>
      inStep_varDecl.map (fun _ => rfl) fun _ h => h

theorem inStep_forLoop (h : InStepStmt n r stmt stmt') :
    InStepStmt n r (forLoop stmt) (forLoop stmt') := by
  refine (inStep_expect (by decide)).next fun _ => inStep_forInitializer.next fun init =>
    (inStep_terminated inStep_expressionUnless).next fun condition =>
      inStep_expressionUnless.bind_expect (by decide) fun increment _ => h.next fun body => ?_
  rw [← Stmt.relabel_forLoop]
  exact inStep_pure

theorem inStep_ifStatement (h : InStepStmt n r stmt stmt') :
    InStepStmt n r (ifStatement stmt) (ifStatement stmt') := by
  refine (inStep_expect (by decide)).next fun _ => inStep_expression.bind_expect (by decide)
    fun c _ => h.next fun a => inStep_else.next fun o => ?_
  cases o with
  | none => exact inStep_pure (a := Stmt.ifThen c a)
  | some _ => exact h.next fun b => inStep_pure (a := Stmt.ifElse c a b)

theorem inStep_whileLoop (h : InStepStmt n r stmt stmt') :
    InStepStmt n r (whileLoop stmt) (whileLoop stmt') :=
  (inStep_expect (by decide)).next fun _ => inStep_expression.bind_expect (by decide) fun c _ =>
    h.next fun body => inStep_pure (a := Stmt.whileLoop c body)

/-- A statement behind its keyword or brace. -/
def statementBehind (stmt : Parser Stmt) (decl : Parser (Option Stmt)) (t : Token) : Parser Stmt :=
  match t.kind with
  | .symbol .kwFor => forLoop stmt
  | .symbol .kwIf => ifStatement stmt
  | .symbol .kwPrint => .print <$> terminated expression "';' after value"
  | .symbol .kwReturn =>
    .returnWith t <$> terminated (expressionUnless .semicolon) "';' after return value"
  | .symbol .kwWhile => whileLoop stmt
  | _ => .block <$> block decl

/-- A declaration behind its keyword. -/
def declarationBehind (decl : Parser (Option Stmt)) (t : Token) : Parser Stmt :=
  match t.kind with
  | .symbol .kwClass => classDecl decl
  | .symbol .kwFun => .funDecl <$> function "function" decl
  | _ => varDecl

section Round

variable (hs : InStepStmt n r stmt stmt') (hd : InStepDecl n r decl decl')
include hd

theorem inStep_declarationBehind (t : Token) :
    InStepStmt n r (declarationBehind decl t) (declarationBehind decl' (t.relabel r)) := by
  simp only [declarationBehind, Token.kind_relabel]
  split
  · exact inStep_classDecl hd
  · exact (inStep_function hd).map (fun _ => rfl) fun _ h => h
  · exact inStep_varDecl

include hs

theorem inStep_statementBehind (t : Token) :
    InStepStmt n r (statementBehind stmt decl t) (statementBehind stmt' decl' (t.relabel r)) := by
  simp only [statementBehind, Token.kind_relabel]
  split
  · exact inStep_forLoop hs
  · exact inStep_ifStatement hs
  · exact (inStep_terminated inStep_expression).map (fun _ => rfl) fun _ h => h
  · exact (inStep_terminated inStep_expressionUnless).map (fun _ => rfl) fun _ h => h
  · exact inStep_whileLoop hs
  · exact (inStep_block hd).map (fun _ => rfl) fun _ h => h

theorem inStep_statement : InStepStmt (n + 1) r (statement stmt decl) (statement stmt' decl') :=
  inStep_acceptIf_bind_closing (byKind_any (by decide)) inStep_expressionStatement
    advances_expressionStatement (Nat.le_refl _) (inStep_statementBehind hs hd)

theorem advances_statement {P : Stmt → Prop} : Advances P (statement stmt decl) :=
  advances_acceptIf_bind advances_expressionStatement fun t =>
    (inStep_statementBehind hs hd t).forward

theorem inStep_declarationRule :
    InStepStmt (n + 1) r (declarationRule stmt decl) (declarationRule stmt' decl') :=
  inStep_acceptIf_bind_closing (byKind_any (by decide)) (inStep_statement hs hd)
    (advances_statement hs hd) (Nat.le_refl _) (inStep_declarationBehind hd)

theorem advances_declarationRule {P : Stmt → Prop} : Advances P (declarationRule stmt decl) :=
  advances_acceptIf_bind (advances_statement hs hd) fun t =>
    (inStep_declarationBehind hd t).forward

end Round

/-! ## Going on behind a fault -/

theorem forward_dropToBoundary (previous : Token) (ts : List Token) :
    ∃ read, ts = read ++ dropToBoundary previous ts ∧ ∀ t ∈ read, t.isEnd = false := by
  induction ts generalizing previous with
  | nil => exact ⟨[], rfl, nofun⟩
  | cons t ts ih =>
    unfold dropToBoundary
    split
    · exact ⟨[], rfl, nofun⟩
    · rename_i hgo
      obtain ⟨read, hread, hend⟩ := ih t
      have ht : t.isEnd = false := by
        simp only [Bool.or_eq_true, not_or, Bool.not_eq_true] at hgo
        exact hgo.1.1
      exact ⟨t :: read, by rw [List.cons_append, ← hread], List.forall_mem_cons.2 ⟨ht, hend⟩⟩

theorem forward_synchronize (ts : List Token) :
    ∃ read, ts = read ++ synchronize ts ∧ ∀ t ∈ read, t.isEnd = false := by
  cases ts with
  | nil => exact ⟨[], rfl, nofun⟩
  | cons t ts =>
    simp only [synchronize]
    split
    · exact ⟨[], rfl, nofun⟩
    · rename_i ht
      obtain ⟨read, hread, hend⟩ := forward_dropToBoundary t ts
      exact ⟨t :: read, by rw [List.cons_append, ← hread],
        List.forall_mem_cons.2 ⟨Bool.eq_false_iff.2 ht, hend⟩⟩

end Rules

/-- Where skipping stops depends on the kinds of tokens only. -/
theorem dropToBoundary_append {previous : Token} {w u v w' : List Token}
    (h : dropToBoundary previous (w ++ u) = w' ++ u) (hbehind : w' ≠ [] ∨ SameEnd r u v) :
    dropToBoundary (previous.relabel r) (w.map (Token.relabel r) ++ v) =
      w'.map (Token.relabel r) ++ v := by
  induction w generalizing previous with
  | nil =>
    have hle : w' = [] := by
      obtain ⟨read, hread, -⟩ := forward_dropToBoundary previous u
      rw [List.nil_append] at h
      have := congrArg List.length hread
      rw [h] at this
      simp only [List.length_append] at this
      exact List.length_eq_zero_iff.1 (by omega)
    subst hle
    obtain ⟨-, rfl, rfl | rfl⟩ := hbehind.resolve_left (fun h => h rfl)
    · rfl
    · rfl
  | cons t w ih =>
    have hkeyword : (t.relabel r).is = t.is := rfl
    simp only [List.cons_append, List.map_cons, dropToBoundary, Token.isEnd_relabel,
      Token.is_relabel, hkeyword] at h ⊢
    split at h
    · rename_i hstop
      obtain rfl : t :: w = w' := List.append_cancel_right h
      rw [if_pos hstop, List.map_cons, List.cons_append]
    · rename_i hgo
      rw [if_neg hgo]
      exact ih h

theorem synchronize_append {w u v w' : List Token} (h : synchronize (w ++ u) = w' ++ u)
    (hw : w ≠ [] ∨ SameEnd r u v) (hbehind : w' ≠ [] ∨ SameEnd r u v) :
    synchronize (w.map (Token.relabel r) ++ v) = w'.map (Token.relabel r) ++ v := by
  cases w with
  | nil =>
    obtain ⟨-, rfl, hv⟩ := hw.resolve_left (fun h => h rfl)
    obtain rfl : [] = w' := List.append_cancel_right h
    rcases hv with rfl | rfl
    · rfl
    · rfl
  | cons t w =>
    simp only [List.cons_append, List.map_cons, synchronize, Token.isEnd_relabel] at h ⊢
    split at h
    · rename_i hstop
      obtain rfl : t :: w = w' := List.append_cancel_right h
      exact if_pos hstop
    · rename_i hgo
      exact (if_neg hgo).trans (dropToBoundary_append h hbehind)

theorem recover_apply (p : Parser α) (c : Cursor) :
    recover p c = ⟨some (p c).result,
      if (p c).result.isSome then (p c).cursor
        else ⟨synchronize (p c).cursor.rest, (p c).cursor.fresh⟩, (p c).faults⟩ := by
  unfold recover
  rcases p c with ⟨_ | a, c', faults⟩ <;> rfl

theorem forward_recover (h : p.Forward) : (recover p).Forward := by
  intro c
  obtain ⟨read, hread, hend⟩ := h c
  rw [recover_apply]
  cases (p c).result with
  | some a => exact ⟨read, hread, hend⟩
  | none =>
    obtain ⟨dropped, hdropped, hend'⟩ := forward_synchronize (p c).cursor.rest
    refine ⟨read ++ dropped, ?_, fun t ht => (List.mem_append.1 ht).elim (hend t) (hend' t)⟩
    rw [hread, List.append_assoc]
    exact congrArg _ hdropped

/-- Whether it has a fault or not, what is read behind a token that is no mark of the end takes
a token: the one that caused the fault is dropped. -/
theorem recover_advances (h : p.Forward) (hadvances : Advances (fun _ => True) p) {c : Cursor}
    (hc : c.atEnd = false) : (recover p c).cursor.rest.length < c.rest.length := by
  rw [recover_apply]
  cases hr : (p c).result with
  | some a => exact hadvances c a hr trivial
  | none =>
    have hle := h.length_le c
    simp only [Option.isSome_none, Bool.false_eq_true, if_false]
    obtain ⟨read, hread, -⟩ := h c
    cases read with
    | cons t read =>
      obtain ⟨dropped, hdropped, -⟩ := forward_synchronize (p c).cursor.rest
      have hlen := congrArg List.length hdropped
      rw [hread, List.length_append, List.length_cons]
      rw [List.length_append] at hlen
      omega
    | nil =>
      rw [List.nil_append] at hread
      rw [← hread]
      obtain ⟨_ | ⟨t, rest⟩, fresh⟩ := c
      · cases hc
      · have ht : t.isEnd = false := hc
        obtain ⟨dropped, hdropped, -⟩ := forward_dropToBoundary t rest
        have hlen := congrArg List.length hdropped
        rw [List.length_append] at hlen
        simp only [synchronize, ht, Bool.false_eq_true, if_false, List.length_cons]
        omega

/-- A declaration that is read closes, and one with a fault does not. -/
theorem inStep_recover (h : InStep n r always g p p') :
    InStep n r (fun o => o.isSome = true) (Option.map g) (recover p) (recover p') := by
  refine ⟨forward_recover h.forward, fun {w u v w' i} hw hrest hbehind => ?_⟩
  simp only [recover_apply] at hrest hbehind ⊢
  cases hr : (p ⟨w ++ u, i⟩).result with
  | some a =>
    rw [hr] at hrest hbehind
    have hbehind' : w' ≠ [] ∨ Unseen r always (p ⟨w ++ u, i⟩) u v := by
      rcases hbehind with hne | hend | ⟨-, -, hclean, helse⟩
      · exact .inl hne
      · exact .inr (.atEnd hend)
      · exact .inr (.closed hr trivial hclean helse)
    rw [h.reply hw hrest hbehind', hr]
    rfl
  | none =>
    rw [hr] at hrest hbehind
    simp only [Option.isSome_none, Bool.false_eq_true, if_false] at hrest
    have hend : w' ≠ [] ∨ SameEnd r u v := hbehind.imp_right fun hunseen =>
      hunseen.sameEnd fun _ ho => by
        obtain rfl := Option.some.inj ho
        exact Bool.false_ne_true
    -- where the parser stopped, at least the tokens are left that are left in the end
    obtain ⟨dropped, hdropped, -⟩ := forward_synchronize (p ⟨w ++ u, i⟩).cursor.rest
    rw [hrest, ← List.append_assoc] at hdropped
    have hend' : dropped ++ w' ≠ [] ∨ SameEnd r u v := hend.imp_left fun h => by simp [h]
    rw [hdropped] at hrest
    rw [h.reply hw hdropped (hend'.imp_right .atEnd), hr]
    simp only [Option.map_none, Option.isSome_none, Bool.false_eq_true, if_false,
      synchronize_append hrest hend' hend, Option.map_some]

/-! ## All rounds -/

/-- One round of the rules of statements and declarations. -/
def nest (rules : Parser Stmt × Parser (Option Stmt)) : Parser Stmt × Parser (Option Stmt) :=
  (statement rules.1 rules.2, recover (declarationRule rules.1 rules.2))

/-- A statement where nothing may be declared. -/
def branch : Parser Stmt := fun c => statementUpTo c.rest c

/-- Statements and declarations in step. -/
def InStepRules (n : Nat) (r : Relabeling)
    (rules rules' : Parser Stmt × Parser (Option Stmt)) : Prop :=
  InStepStmt n r rules.1 rules'.1 ∧ InStepDecl n r rules.2 rules'.2

/-- One round of the rules of statements and declarations. -/
theorem inStep_nest {rules rules' : Parser Stmt × Parser (Option Stmt)}
    (h : InStepRules n r rules rules') : InStepRules (n + 1) r (nest rules) (nest rules') := by
  have hrule := inStep_declarationRule h.1 h.2
  exact ⟨inStep_statement h.1 h.2, inStep_recover hrule, fun c _ hc _ =>
    recover_advances hrule.forward (advances_declarationRule h.1 h.2) hc⟩

/-- The rounds that a budget allows. -/
def upTo (budget : List Token) : Parser Stmt × Parser (Option Stmt) :=
  (statementUpTo budget, declarationUpTo budget)

theorem upTo_nil : upTo [] = nest (giveUp, giveUp) := by
  refine Prod.ext (funext fun c => ?_) (funext fun c => ?_)
  · simp only [upTo, statementUpTo, nest]
  · simp only [upTo, declarationUpTo, nest]

theorem upTo_cons (t : Token) (budget : List Token) : upTo (t :: budget) = nest (upTo budget) := by
  refine Prod.ext (funext fun c => ?_) (funext fun c => ?_)
  · simp only [upTo, statementUpTo, nest]
  · simp only [upTo, declarationUpTo, nest]

theorem upTo_eq_iterate (budget : List Token) :
    upTo budget = nest^[budget.length + 1] (giveUp, giveUp) := by
  induction budget with
  | nil => exact upTo_nil
  | cons t budget ih => rw [List.length_cons, Function.iterate_succ_apply', ← ih, upTo_cons]

theorem inStepRules_giveUp (bottom : Parser Stmt × Parser (Option Stmt)) :
    InStepRules 0 r (giveUp, giveUp) bottom :=
  ⟨forward_giveUp.inStep, forward_giveUp.inStep, fun _ _ _ h => by cases h⟩

theorem InStepRules.zero {rules rules' : Parser Stmt × Parser (Option Stmt)}
    (h : InStepRules n r rules rules') : InStepRules 0 r rules bottom :=
  ⟨h.1.forward.inStep, h.2.inStep.forward.inStep, h.2.advances⟩

theorem inStepRules_zero (budget : List Token) (bottom : Parser Stmt × Parser (Option Stmt)) :
    InStepRules 0 r (upTo budget) bottom := by
  induction budget generalizing bottom with
  | nil =>
    rw [upTo_nil]
    exact (inStep_nest (inStepRules_giveUp bottom)).zero
  | cons t budget ih =>
    rw [upTo_cons]
    exact (inStep_nest (ih bottom)).zero

/-- What stands below as many rounds as there are tokens, and one more, is never asked. -/
theorem inStepRules_upTo {rounds : Nat} {budget : List Token} (hbudget : m ≤ budget.length + 1)
    (hrounds : m ≤ rounds) : InStepRules m r (upTo budget) (nest^[rounds] bottom) := by
  induction rounds generalizing m budget with
  | zero =>
    obtain rfl := Nat.le_zero.1 hrounds
    exact inStepRules_zero budget bottom
  | succ rounds ih =>
    rw [Function.iterate_succ_apply']
    cases m with
    | zero => exact inStepRules_zero budget _
    | succ m =>
      cases budget with
      | nil =>
        obtain rfl : m = 0 := by simpa using hbudget
        rw [upTo_nil]
        exact inStep_nest (inStepRules_giveUp _)
      | cons t budget =>
        rw [upTo_cons]
        exact inStep_nest (ih (by simpa using hbudget) (by omega))

/-- A declaration that does not stand at the end takes a token, with a fault or without. -/
theorem declarationUpTo_advances (budget : List Token) {c : Cursor} (hc : c.atEnd = false) :
    (declarationUpTo budget c).cursor.rest.length < c.rest.length := by
  have hresult : ∃ o, (declarationUpTo budget c).result = some o := by
    cases budget <;> simp only [declarationUpTo, recover_apply] <;> exact ⟨_, rfl⟩
  obtain ⟨o, ho⟩ := hresult
  exact (inStepRules_zero (r := .erase) budget (upTo budget)).2.advances c o hc ho

theorem inStepRules_rounds : InStepRules n r (branch, declaration) (nest^[n] bottom) :=
  ⟨inStep_ofBudget fun _ _ hn hbudget => (inStepRules_upTo hbudget hn).1,
    inStep_ofBudget fun _ _ hn hbudget => (inStepRules_upTo hbudget hn).2.inStep,
    fun c _ hc _ => declarationUpTo_advances c.rest hc⟩

theorem inStepRules_self : InStepRules n r (branch, declaration) (branch, declaration) := by
  have hrounds : ∀ budget, InStepRules (budget.length + 1) r (branch, declaration) (upTo budget) :=
    fun budget => upTo_eq_iterate budget ▸ inStepRules_rounds
  exact ⟨inStep_toBudget (hrounds []).1.forward fun budget _ _ hbudget =>
      (hrounds budget).1.mono hbudget,
    inStep_toBudget (hrounds []).2.inStep.forward fun budget _ _ hbudget =>
      (hrounds budget).2.inStep.mono hbudget, (hrounds []).2.advances⟩

/-! ## The rules as they refer to each other -/

theorem relabel_zero_option (o : Option Stmt) : o.map (Stmt.relabel (.move 0 0)) = o := by
  rw [funext Stmt.relabel_zero, Option.map_id']

/-- The same of statements and declarations, which refer to each other. -/
theorem nest_eq : nest (branch, declaration) = (branch, declaration) := by
  have hrounds : ∀ n, InStepRules (n + 1) (.move 0 0) (nest (branch, declaration))
      (nest^[n + 1] (giveUp, giveUp)) := by
    intro n
    rw [Function.iterate_succ_apply']
    exact inStep_nest inStepRules_rounds
  refine Prod.ext (funext fun c => ?_) (funext fun c => ?_)
  · exact (hrounds c.rest.length).1.eq_apply_of_common inStepRules_rounds.1 Stmt.relabel_zero
      (Nat.lt_succ_self _)
  · exact (hrounds c.rest.length).2.inStep.eq_apply_of_common inStepRules_rounds.2.inStep
      relabel_zero_option (Nat.lt_succ_self _)

theorem declaration_eq : declaration = recover (declarationRule branch declaration) :=
  (congrArg Prod.snd nest_eq).symm

/-! ## Programs -/

/-- A declaration, unless the program ends here. -/
def programItem : Parser (Option (Option Stmt)) := do
  if ← atEnd then pure none else some <$> declaration

theorem programItem_apply (c : Cursor) :
    programItem c = if c.atEnd then ⟨some none, c, []⟩ else (some <$> declaration) c := by
  simp only [programItem, bind_apply, atEnd]
  cases c.atEnd <;> rfl

theorem reads_programItem_some {c c' : Cursor} {o : Option Stmt} :
    programItem.Reads c (some o) c' ↔ c.atEnd = false ∧ declaration.Reads c o c' := by
  rw [Reads, programItem_apply]
  cases c.atEnd with
  | true => simp
  | false =>
    change (some <$> declaration).Reads c (some o) c' ↔ _
    simp [reads_map]

theorem reads_programItem_none {c c' : Cursor} :
    programItem.Reads c none c' ↔ c.atEnd = true ∧ c' = c := by
  rw [Reads, programItem_apply]
  cases c.atEnd with
  | true => simp [eq_comm]
  | false =>
    change (some <$> declaration).Reads c none c' ↔ _
    simp [reads_map]

theorem repeats_programItem : Repeats fun _ => programItem := by
  refine ⟨fun _ c o ho hsome => ?_, fun _ _ => rfl⟩
  simp only [programItem_apply] at ho ⊢
  split at ho
  · obtain rfl := Option.some.inj ho
    cases hsome
  · rename_i hend
    rw [if_neg hend, map_apply]
    exact declarationUpTo_advances c.rest (Bool.eq_false_iff.2 hend)

theorem inStep_programItem :
    InStep n r never (Option.map (Option.map (Stmt.relabel r))) programItem programItem := by
  refine inStep_atEnd.bind fun b => ?_
  cases b with
  | true => exact inStep_pure (a := none)
  | false => exact inStepRules_self.2.inStep.map (fun _ => rfl) fun _ h => h.elim

theorem inStep_program : InStep n r never (Stmts.relabel r) program program := by
  refine (inStep_many repeats_programItem fun _ => inStep_programItem).bind fun os => ?_
  rw [← relabel_reduceOption]
  exact inStep_pure

end Parser

open Lox.Parser

/-- A parser that only goes forward stops before a mark of the end. -/
theorem Parser.Forward.stops {α : Type} {p : Parser α} (h : p.Forward) {w u : List Token}
    {e : Token} {i : NodeId} (he : e.isEnd = true) :
    ∃ w', (p ⟨w ++ e :: u, i⟩).cursor.rest = w' ++ e :: u := by
  obtain ⟨read, hread, hend⟩ := h ⟨w ++ e :: u, i⟩
  rcases List.append_eq_append_iff.1 hread with ⟨v, rfl, hv⟩ | ⟨v, -, hv⟩
  · cases v with
    | nil => exact ⟨[], hv.symm⟩
    | cons t v =>
      obtain ⟨rfl, -⟩ := List.cons.inj hv
      rw [hend e (by simp)] at he
      cases he
  · exact ⟨v, hv⟩

/-- A program on other lines and with other numbers, faults included. If a mark of the end is
assumed, it has to stay on its line. -/
theorem parse_relabel {r : Relabeling} {tokens : List Token}
    (h : r.line 0 = 0 ∨ ∃ t ∈ tokens, t.isEnd = true) (i : NodeId) :
    parse (i + r.shift) (tokens.map (Token.relabel r)) =
      ⟨Stmts.relabel r (parse i tokens).statements,
        (parse i tokens).faults.map (Diagnostic.relabel r), (parse i tokens).fresh + r.shift⟩ := by
  have hrest : (program ⟨tokens ++ [], i⟩).cursor.rest =
      (program ⟨tokens, i⟩).cursor.rest ++ [] := by simp only [List.append_nil]
  have hbehind : (program ⟨tokens, i⟩).cursor.rest ≠ [] ∨
      Unseen r never (program ⟨tokens ++ [], i⟩) [] [] := by
    refine h.symm.imp (fun hend => ?_) fun hline => .atEnd ⟨hline, rfl, .inl rfl⟩
    obtain ⟨e, hmem, he⟩ := hend
    obtain ⟨w, u, rfl⟩ := List.mem_iff_append.1 hmem
    obtain ⟨w', hw'⟩ := (inStep_program (n := 0) (r := .erase)).forward.stops (w := w) (u := u)
      (i := i) he
    simp [hw']
  have hreply := inStep_program.reply (Nat.lt_succ_self tokens.length) hrest hbehind
  simp only [List.append_nil] at hreply
  simp only [parse, hreply]
  cases (program ⟨tokens, i⟩).result <;> rfl

/-- A program with other numbers, faults included. -/
theorem parse_move (i : NodeId) (k : Nat) (tokens : List Token) :
    parse (i + k) tokens =
      ⟨Stmts.relabel (.move 0 k) (parse i tokens).statements, (parse i tokens).faults,
        (parse i tokens).fresh + k⟩ := by
  have hsame : tokens.map (Token.relabel (.move 0 k)) = tokens := List.map_id' _
  have hmove := parse_relabel (r := .move 0 k) (.inl rfl : _ ∨ ∃ t ∈ tokens, t.isEnd = true) i
  rwa [relabel_faults, hsame] at hmove

/-- Tokens that are answered alike are read as the same program. -/
theorem parse_eq_of_unseen {w u v w' : List Token} {i : NodeId}
    (hrest : (program ⟨w ++ u, i⟩).cursor.rest = w' ++ u)
    (hbehind : w' ≠ [] ∨ SameEnd (.move 0 0) u v) :
    parse i (w ++ v) = parse i (w ++ u) := by
  have hreply := inStep_program.reply_move (k := 0) (Nat.lt_succ_self w.length) hrest hbehind
  simp only [Nat.add_zero] at hreply
  simp only [parse, hreply]
  rw [funext Stmts.relabel_zero, Option.map_id']

/-- The tokens up to the first mark of the end, which is assumed if it is missing. -/
def upToEnd (tokens : List Token) : List Token :=
  tokens.takeWhile (fun t => !t.isEnd) ++ [(tokens.find? Token.isEnd).getD (Token.endMark 0)]

theorem upToEnd_of_forall {tokens : List Token} (h : ∀ t ∈ tokens, t.isEnd = false) :
    upToEnd tokens = tokens ++ [Token.endMark 0] := by
  have hwhile : tokens.takeWhile (fun t => !t.isEnd) = tokens :=
    List.takeWhile_eq_self_iff.2 fun t ht => by rw [h t ht]; rfl
  have hfind : tokens.find? Token.isEnd = none :=
    List.find?_eq_none.2 fun t ht => by rw [h t ht]; exact Bool.false_ne_true
  rw [upToEnd, hwhile, hfind]
  rfl

theorem upToEnd_append {w u : List Token} {e : Token} (h : ∀ t ∈ w, t.isEnd = false)
    (he : e.isEnd = true) : upToEnd (w ++ e :: u) = w ++ [e] := by
  have hwhile : (w ++ e :: u).takeWhile (fun t => !t.isEnd) = w := by
    rw [List.takeWhile_append_of_pos fun t ht => by rw [h t ht]; rfl, List.takeWhile_cons, he]
    exact List.append_nil w
  have hfind : (w ++ e :: u).find? Token.isEnd = some e := by
    have hw : w.find? Token.isEnd = none :=
      List.find?_eq_none.2 fun t ht => by rw [h t ht]; exact Bool.false_ne_true
    rw [List.find?_append, hw, Option.none_or, List.find?_cons, he]
  rw [upToEnd, hwhile, hfind]
  rfl

/-- Tokens without a mark of the end are all before it, or there is a first such mark. -/
theorem isEnd_cases (tokens : List Token) :
    (∀ t ∈ tokens, t.isEnd = false) ∨
      ∃ w e u, tokens = w ++ e :: u ∧ (∀ t ∈ w, t.isEnd = false) ∧ e.isEnd = true := by
  induction tokens with
  | nil => exact .inl nofun
  | cons t tokens ih =>
    cases ht : t.isEnd with
    | true => exact .inr ⟨[], t, tokens, rfl, nofun, ht⟩
    | false =>
      rcases ih with h | ⟨w, e, u, rfl, hw, he⟩
      · exact .inl (List.forall_mem_cons.2 ⟨ht, h⟩)
      · exact .inr ⟨t :: w, e, u, rfl, List.forall_mem_cons.2 ⟨ht, hw⟩, he⟩

/-- What tokens are read as rests on those up to the first mark of the end. -/
theorem parse_upToEnd (i : NodeId) (tokens : List Token) :
    parse i (upToEnd tokens) = parse i tokens := by
  rcases isEnd_cases tokens with h | ⟨w, e, u, rfl, hw, he⟩
  · rw [upToEnd_of_forall h]
    have hrest : (program ⟨tokens ++ [], i⟩).cursor.rest =
        (program ⟨tokens, i⟩).cursor.rest ++ [] := by simp only [List.append_nil]
    rw [parse_eq_of_unseen hrest (.inr ⟨rfl, rfl, .inr rfl⟩), List.append_nil]
  · rw [upToEnd_append hw he]
    obtain ⟨w', hrest⟩ := (inStep_program (n := 0) (r := .erase)).forward.stops (w := w) (u := u)
      (i := i) he
    have hrest' : (program ⟨(w ++ [e]) ++ u, i⟩).cursor.rest = (w' ++ [e]) ++ u := by
      simpa only [List.append_assoc, List.singleton_append] using hrest
    have hparse := parse_eq_of_unseen (v := []) hrest' (.inl (by simp))
    simpa only [List.append_nil, List.append_assoc, List.singleton_append] using hparse

end Lox
