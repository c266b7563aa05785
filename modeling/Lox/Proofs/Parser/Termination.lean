import Lox.Proofs.Parser.Rules

/-!
# Reading ends, and ends before the end

The rules of the grammar refer to each other without a bound, and so do the rounds of a
repetition. Each of them has read a token before it comes back to itself, so on fewer than `n`
tokens it never gets through `n` rounds: what would be asked below them plays no part. Neither a
rule nor the way on behind a fault ever goes back, or past a mark of the end, and a declaration
that is asked for before the end goes forward even if all it does is to report a fault.
-/

namespace Lox.Parser

variable {α : Type}

/-- The items of the repetitions in the grammar. -/
inductive IsLoop : {α : Type} → (Nat → Parser (Option α)) → Prop
  | signs : IsLoop fun _ => acceptAny [.bang, .minus]
  | suffixes : IsLoop fun _ => suffix expression
  | operands {looser tighter : List Level} {level : Level} :
      levels = looser ++ level :: tighter →
        IsLoop fun _ => rightOperand level (tighter.foldr chain (unary expression))
  | arguments : IsLoop (commaItem (limited (.tooManyArguments maxArity) expression))
  | parameters :
      IsLoop (commaItem
        (limited (.tooManyParameters maxArity) (expect .identifier "parameter name")))
  | statements : IsLoop fun _ => beforeBrace (some <$> declaration)
  | members : IsLoop fun _ => member declaration
  | program : IsLoop fun _ => programItem

/-- The rules of the grammar, each with the rules that it refers to. -/
inductive IsRule : {α : Type} → Parser α → Prop
  | accept {s : Symbol} : s ≠ .eof → IsRule (accept s)
  | acceptAny {ss : List Symbol} : .eof ∉ ss → IsRule (acceptAny ss)
  | expect {s : Symbol} {what : String} : s ≠ .eof → IsRule (expect s what)
  | item {α : Type} {item : Nat → Parser (Option α)} (index : Nat) : IsLoop item →
      IsRule (item index)
  | repetition {α : Type} {item : Nat → Parser (Option α)} : IsLoop item → IsRule (many item)
  | limited {α : Type} {p : Parser α} {fault : SyntaxFault} (index : Nat) : IsRule p →
      IsRule (limited fault p index)
  | commaList {α : Type} {p : Parser α} {fault : SyntaxFault} : IsRule p →
      IsRule (commaList (Parser.limited fault p))
  | terminated {α : Type} {p : Parser α} {what : String} : IsRule p → IsRule (terminated p what)
  | primary : IsRule (primary expression)
  | arguments : IsRule (arguments expression)
  | call : IsRule (call expression)
  | unary : IsRule (unary expression)
  | operations {looser tighter : List Level} : levels = looser ++ tighter →
      IsRule (tighter.foldr chain (Parser.unary expression))
  | conditional : IsRule (conditional expression)
  | coalescing : IsRule (coalescing expression)
  | store {target value : Expr} {equals : Token} : IsRule (store target equals value)
  | expression : IsRule expression
  | expressionUnless {s : Symbol} : IsRule (expressionUnless s)
  | expressionStatement : IsRule expressionStatement
  | initializer : IsRule initializer
  | varDecl : IsRule varDecl
  | block : IsRule (block declaration)
  | function {kind : String} : IsRule (function kind declaration)
  | superclass : IsRule superclass
  | classDecl : IsRule (classDecl declaration)
  | forInitializer : IsRule forInitializer
  | forLoop : IsRule (forLoop branch)
  | ifStatement : IsRule (ifStatement branch)
  | whileLoop : IsRule (whileLoop branch)
  | statement : IsRule branch
  | attempt : IsRule (declarationRule branch declaration)
  | declaration : IsRule declaration
  | program : IsRule program

/-- The places that are reached from the first token by rules one after the other. -/
inductive Reached (tokens : List Token) : Cursor → Prop
  | start {fresh : NodeId} : Reached tokens ⟨tokens, fresh⟩
  | behind {α : Type} {p : Parser α} {c : Cursor} : IsRule p → Reached tokens c →
      Reached tokens (p c).cursor

theorem inStep_tighter {looser tighter : List Level} (h : levels = looser ++ tighter) :
    InStepExpr 1 .erase (tighter.foldr chain (unary expression))
      (tighter.foldr chain (unary expression)) :=
  inStep_levels inStep_expression fun level hlevel => by
    rw [h]
    exact List.mem_append_right _ hlevel

theorem tighter_append {looser tighter : List Level} {level : Level}
    (h : levels = looser ++ level :: tighter) : levels = (looser ++ [level]) ++ tighter := by
  rw [h, List.append_assoc, List.singleton_append]

theorem IsLoop.repeats {item : Nat → Parser (Option α)} (h : IsLoop item) : Repeats item := by
  cases h with
  | signs => exact repeats_signs
  | suffixes => exact repeats_suffix (n := 0) (r := .erase) inStep_expression
  | operands hlevels => exact repeats_rightOperand (inStep_tighter (tighter_append hlevels))
  | arguments =>
    exact repeats_commaItem fun index =>
      (inStep_limited (n := 0) (r := .erase) inStep_expression index).forward
  | parameters =>
    exact repeats_commaItem fun index =>
      (inStep_limited (n := 0) (r := .erase) (inStep_expect (by decide)) index).forward
  | statements => exact repeats_blockItem (n := 0) (r := .erase) inStepRules_self.2
  | members => exact repeats_member (n := 0) (r := .erase) inStepRules_self.2
  | program => exact repeats_programItem

theorem IsLoop.forward {item : Nat → Parser (Option α)} (h : IsLoop item) (index : Nat) :
    (item index).Forward := by
  cases h with
  | signs => exact forward_acceptIf (byKind_any (by decide))
  | suffixes => exact (inStep_suffix (n := 0) (r := .erase) inStep_expression).forward
  | @operands _ _ level hlevels =>
    have hlevel : level ∈ levels := by
      rw [hlevels]
      exact List.mem_append_right _ List.mem_cons_self
    exact (inStep_rightOperand (inStep_tighter (tighter_append hlevels)) hlevel).forward
  | arguments =>
    exact (inStep_commaItem (n := 0) (r := .erase) (inStep_limited inStep_expression) index).forward
  | parameters =>
    exact (inStep_commaItem (n := 0) (r := .erase) (inStep_limited (inStep_expect (by decide)))
      index).forward
  | statements =>
    exact (inStep_blockItem (n := 0) (r := .erase) inStepRules_self.2).forward
  | members =>
    exact (inStep_beforeBrace (n := 0) (r := .erase) (inStep_method inStepRules_self.2)).forward
  | program => exact (inStep_programItem (n := 0) (r := .erase)).forward

/-- No rule goes back, however it is made of others. -/
theorem IsRule.forward {p : Parser α} (h : IsRule p) : p.Forward := by
  have hexpr : InStepExpr 0 .erase Parser.expression Parser.expression := inStep_expression
  obtain ⟨hbranch, hdecl⟩ := inStepRules_self (n := 0) (r := .erase)
  induction h with
  | accept hs => exact forward_acceptIf (byKind_is hs)
  | acceptAny hss => exact forward_acceptIf (byKind_any hss)
  | expect hs => exact forward_expect hs
  | item index h => exact h.forward index
  | repetition h => exact fun c => forward_manyUpTo h.forward c.rest 0 c
  | @limited _ p _ index _ ih =>
    exact (inStep_limited (ih.inStep : InStep 0 .erase never id p p) index).forward
  | @commaList _ p _ _ ih =>
    exact (inStep_commaList (inStep_limited (ih.inStep : InStep 0 .erase never id p p))).forward
  | @terminated _ p what _ ih =>
    have h : InStep 0 .erase never id (p.terminated what) (p.terminated what) :=
      inStep_terminated ih.inStep
    exact h.forward
  | primary => exact (inStep_primary hexpr).forward
  | arguments => exact (inStep_arguments hexpr).forward
  | call => exact (inStep_call hexpr).forward
  | unary => exact (inStep_unary hexpr).forward
  | operations hlevels => exact (inStep_tighter hlevels).forward
  | conditional => exact (inStep_conditional hexpr).forward
  | coalescing => exact (inStep_coalescing hexpr).forward
  | store => exact (inStep_store (n := 0) (r := .erase)).forward
  | expression => exact hexpr.forward
  | expressionUnless => exact (inStep_expressionUnless (n := 0) (r := .erase)).forward
  | expressionStatement => exact (inStep_expressionStatement (n := 0) (r := .erase)).forward
  | initializer => exact (inStep_initializer (n := 0) (r := .erase)).forward
  | varDecl => exact (inStep_varDecl (n := 0) (r := .erase)).forward
  | block => exact (inStep_block hdecl).forward
  | function => exact (inStep_function hdecl).forward
  | superclass => exact (inStep_superclass (n := 0) (r := .erase)).forward
  | classDecl => exact (inStep_classDecl hdecl).forward
  | forInitializer => exact (inStep_forInitializer (n := 0) (r := .erase)).forward
  | forLoop => exact (inStep_forLoop hbranch).forward
  | ifStatement => exact (inStep_ifStatement hbranch).forward
  | whileLoop => exact (inStep_whileLoop hbranch).forward
  | statement => exact hbranch.forward
  | attempt => exact (inStep_declarationRule hbranch hdecl).forward
  | declaration => exact hdecl.inStep.forward
  | program => exact (inStep_program (n := 0) (r := .erase)).forward

/-- No rule gets past a mark of the end, nor do any of them one after the other. -/
theorem Reached.unread {tokens : List Token} {c : Cursor} (h : Reached tokens c) :
    ∃ read, tokens = read ++ c.rest ∧ ∀ t ∈ read, t.isEnd = false := by
  induction h with
  | start => exact ⟨[], rfl, nofun⟩
  | @behind _ p c hp _ ih =>
    obtain ⟨u, hu, hend⟩ := ih
    obtain ⟨v, hv, hend'⟩ := hp.forward c
    refine ⟨u ++ v, by rw [hu, hv, List.append_assoc], fun t ht => ?_⟩
    exact (List.mem_append.1 ht).elim (hend t) (hend' t)

theorem expression_rounds (bottom : Parser Expr) {n : Nat} {c : Cursor} (hn : c.rest.length < n) :
    assignment^[n] bottom c = expression c :=
  inStep_expression_rounds.eq_apply Expr.relabel_zero hn

theorem declaration_rounds (bottom : Parser Stmt × Parser (Option Stmt)) {n : Nat} {c : Cursor}
    (hn : c.rest.length < n) :
    (nest^[n] bottom).1 c = branch c ∧ (nest^[n] bottom).2 c = declaration c :=
  ⟨inStepRules_rounds.1.eq_apply Stmt.relabel_zero hn,
    inStepRules_rounds.2.inStep.eq_apply relabel_zero_option hn⟩

/-- Reading ends. On fewer than `n` tokens, the rules of expressions, those of statements and each
repetition are done within `n` rounds, whatever would be asked below. No rule goes back, none gets
past the first mark of the end, and a declaration that is asked for before the end goes forward.
What is read rests on the tokens up to the first mark of the end, and one without text on line
zero is assumed where there is none. -/
theorem settles_before_end :
    (∀ (bottom : Parser Expr) (n : Nat) (c : Cursor), c.rest.length < n →
      assignment^[n] bottom c = expression c) ∧
    (∀ (bottom : Parser Stmt × Parser (Option Stmt)) (n : Nat) (c : Cursor), c.rest.length < n →
      (nest^[n] bottom).1 c = branch c ∧ (nest^[n] bottom).2 c = declaration c) ∧
    (∀ {α : Type} {item : Nat → Parser (Option α)}, IsLoop item →
      ∀ (bottom : Nat → Parser (List α)) (n : Nat) (c : Cursor), c.rest.length < n →
        (round item)^[n] bottom 0 c = many item c) ∧
    (∀ {α : Type} {p : Parser α}, IsRule p → ∀ c : Cursor,
      ∃ read, c.rest = read ++ (p c).cursor.rest) ∧
    (∀ (tokens : List Token) (c : Cursor), Reached tokens c →
      ∃ read, tokens = read ++ c.rest ∧ ∀ t ∈ read, t.isEnd = false) ∧
    (∀ (budget : List Token) (c : Cursor), c.atEnd = false →
      (declarationUpTo budget c).cursor.rest.length < c.rest.length) ∧
    ∀ (fresh : NodeId) (tokens : List Token),
      parse fresh tokens = parse fresh (tokens.takeWhile (fun t => !t.isEnd) ++
        [(tokens.find? Token.isEnd).getD (Token.endMark 0)]) := by
  refine ⟨fun bottom n c => expression_rounds bottom, fun bottom n c => declaration_rounds bottom,
    fun hitem bottom n c hn => hitem.repeats.rounds_eq bottom 0 (Nat.le_refl _) hn,
    fun hp c => ?_, fun tokens c => Reached.unread, fun budget c => declarationUpTo_advances budget,
    fun fresh tokens => (parse_upToEnd fresh tokens).symm⟩
  obtain ⟨read, hread, -⟩ := hp.forward c
  exact ⟨read, hread⟩

end Lox.Parser
