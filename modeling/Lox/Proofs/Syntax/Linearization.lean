import Lox.Proofs.Syntax.Writing
import Mathlib

/-!
# Linearizations

A program whose nodes are those of the grammar and whose operands are on the levels that they need
to be on is written as its linearization: the tokens that it keeps, and between them the others,
which are all on one line. The methods of a class come before its static methods.
-/

namespace Lox

/-! ## Programs that can be written -/

/-- The level of a symbol that is an operator with two operands. -/
def Symbol.tier : Symbol → Nat
  | .kwOr => 2
  | .kwAnd => 3
  | .bangEqual | .equalEqual => 4
  | .greater | .greaterEqual | .less | .lessEqual => 5
  | .minus | .plus => 6
  | _ => 7

/-- The level of a token that is an operator with two operands. -/
def Token.tier (op : Token) : Nat :=
  match op.kind with
  | .symbol s => s.tier
  | _ => 7

mutual

/-- An expression of the level `j`, or of a tighter level, whose nodes are those of the grammar and
whose operands are on the levels that they need to be on. -/
def Expr.Writable : Expr → Nat → Prop
  | .literal _, j => j ≤ 10
  | .grouping e, j => j ≤ 10 ∧ e.Writable 0
  | .unary op e, j => j ≤ 8 ∧ [Symbol.bang, .minus].any op.is = true ∧ e.Writable 8
  | .binary l op r, j =>
    j ≤ op.tier ∧ op.IsBinaryOperator ∧ l.Writable op.tier ∧ r.Writable (op.tier + 1)
  | .logical l op r, j =>
    j ≤ op.tier ∧ [Symbol.kwOr, .kwAnd].any op.is = true ∧ l.Writable op.tier ∧
      r.Writable (op.tier + 1)
  | .conditional c a b, j => j ≤ 1 ∧ c.Writable 2 ∧ a.Writable 0 ∧ b.Writable 0
  | .var _ name, j => j ≤ 10 ∧ name.is .identifier = true
  | .assign _ name e, j => j ≤ 0 ∧ name.is .identifier = true ∧ e.Writable 0
  | .call e paren es, j =>
    j ≤ 9 ∧ e.Writable 9 ∧ paren.is .rightParen = true ∧ es.length ≤ Parser.maxArity ∧
      Exprs.Writable es
  | .get e name, j => j ≤ 9 ∧ e.Writable 9 ∧ name.is .identifier = true
  | .set e name e₁, j => j ≤ 0 ∧ e.Writable 9 ∧ name.is .identifier = true ∧ e₁.Writable 0
  | .thisRef _ keyword, j => j ≤ 10 ∧ keyword.is .kwThis = true
  | .superRef _ keyword method, j =>
    j ≤ 10 ∧ keyword.is .kwSuper = true ∧ method.is .identifier = true

def Exprs.Writable : List Expr → Prop
  | [] => True
  | e :: es => e.Writable 0 ∧ Exprs.Writable es

end

mutual

/-- A statement of the level `j` whose nodes are those of the grammar. A superclass is a name,
branches and loop bodies declare nothing, and a branch in front of an `else` does not end with a
conditional that has none. -/
def Stmt.Writable : Stmt → Nat → Prop
  | .expression e, j | .print e, j => j ≤ 2 ∧ e.Writable 0
  | .varDecl name o, j => j ≤ 0 ∧ name.is .identifier = true ∧ ∀ e ∈ o, e.Writable 0
  | .block ss, j => j ≤ 2 ∧ Stmts.Writable ss
  | .ifThen c s, j => j ≤ 1 ∧ c.Writable 0 ∧ s.Writable 1
  | .ifElse c s s₁, j => c.Writable 0 ∧ s.Writable 2 ∧ s₁.Writable (max 1 j)
  | .whileLoop c s, j => c.Writable 0 ∧ s.Writable (max 1 j)
  | .funDecl f, j => j ≤ 0 ∧ f.Writable
  | .returnWith keyword o, j => j ≤ 2 ∧ keyword.is .kwReturn = true ∧ ∀ e ∈ o, e.Writable 0
  | .classDecl ⟨name, o, methods, statics⟩, j =>
    j ≤ 0 ∧ name.is .identifier = true ∧
      (∀ e ∈ o, ∃ id name, e = .var id name ∧ name.is .identifier = true) ∧
        FunctionDecls.Writable methods ∧ FunctionDecls.Writable statics

def Stmts.Writable : List Stmt → Prop
  | [] => True
  | s :: ss => s.Writable 0 ∧ Stmts.Writable ss

def FunctionDecl.Writable : FunctionDecl → Prop
  | ⟨name, params, body⟩ =>
    name.is .identifier = true ∧ (∀ p ∈ params, p.is .identifier = true) ∧
      params.length ≤ Parser.maxArity ∧ Stmts.Writable body

def FunctionDecls.Writable : List FunctionDecl → Prop
  | [] => True
  | f :: fs => f.Writable ∧ FunctionDecls.Writable fs

end

/-! ## Linearizations -/

/-- A token where a tree keeps none. -/
def Token.of (s : Symbol) : Token := ⟨.symbol s, "", 0⟩

/-- A token that denotes a constant. -/
def Literal.token : Literal → Token
  | .number x => ⟨.number (.ofFloat x), "", 0⟩
  | .string text => ⟨.string text, "", 0⟩
  | .bool b => .of (if b then .kwTrue else .kwFalse)
  | .nil => .of .kwNil

/-- Commas between entries. -/
def separate : List (List Token) → List Token
  | [] => []
  | u :: us => u ++ us.flatMap (.of .comma :: ·)

mutual

/-- The tokens of an expression. -/
def Expr.tokens : Expr → List Token
  | .literal value => [value.token]
  | .grouping e => .of .leftParen :: (e.tokens ++ [.of .rightParen])
  | .unary op e => op :: e.tokens
  | .binary l op r | .logical l op r => l.tokens ++ op :: r.tokens
  | .conditional c a b => c.tokens ++ .of .question :: (a.tokens ++ .of .colon :: b.tokens)
  | .var _ name => [name]
  | .assign _ name e => name :: .of .equal :: e.tokens
  | .call e paren es => e.tokens ++ .of .leftParen :: (separate (Exprs.tokens es) ++ [paren])
  | .get e name => e.tokens ++ [.of .dot, name]
  | .set e name e₁ => e.tokens ++ .of .dot :: name :: .of .equal :: e₁.tokens
  | .thisRef _ keyword => [keyword]
  | .superRef _ keyword method => [keyword, .of .dot, method]

def Exprs.tokens : List Expr → List (List Token)
  | [] => []
  | e :: es => e.tokens :: Exprs.tokens es

end

/-- The tokens of an expression that may be missing, behind others. -/
def Expr.behind (front : List Token) : Option Expr → List Token
  | none => []
  | some e => front ++ e.tokens

mutual

/-- The tokens of a statement. -/
def Stmt.tokens : Stmt → List Token
  | .expression e => e.tokens ++ [.of .semicolon]
  | .print e => .of .kwPrint :: (e.tokens ++ [.of .semicolon])
  | .varDecl name o => .of .kwVar :: name :: (Expr.behind [.of .equal] o ++ [.of .semicolon])
  | .block ss => .of .leftBrace :: (Stmts.tokens ss ++ [.of .rightBrace])
  | .ifThen c s => .of .kwIf :: .of .leftParen :: (c.tokens ++ .of .rightParen :: s.tokens)
  | .ifElse c s s₁ => .of .kwIf :: .of .leftParen ::
      (c.tokens ++ .of .rightParen :: (s.tokens ++ .of .kwElse :: s₁.tokens))
  | .whileLoop c s => .of .kwWhile :: .of .leftParen :: (c.tokens ++ .of .rightParen :: s.tokens)
  | .funDecl f => .of .kwFun :: f.tokens
  | .returnWith keyword o => keyword :: (Expr.behind [] o ++ [.of .semicolon])
  | .classDecl ⟨name, o, methods, statics⟩ => .of .kwClass :: name ::
      (Expr.behind [.of .less] o ++ .of .leftBrace ::
        (FunctionDecls.tokens [] methods ++ FunctionDecls.tokens [.of .kwStatic] statics ++
          [.of .rightBrace]))

def Stmts.tokens : List Stmt → List Token
  | [] => []
  | s :: ss => s.tokens ++ Stmts.tokens ss

def FunctionDecl.tokens : FunctionDecl → List Token
  | ⟨name, params, body⟩ => name :: .of .leftParen ::
      (separate (params.map ([·])) ++ .of .rightParen :: .of .leftBrace ::
        (Stmts.tokens body ++ [.of .rightBrace]))

/-- The tokens of methods, each behind others. -/
def FunctionDecls.tokens (front : List Token) : List FunctionDecl → List Token
  | [] => []
  | f :: fs => front ++ f.tokens ++ FunctionDecls.tokens front fs

end

/-! ## Linearizations are how programs are written -/

theorem Token.is_of (s : Symbol) : (of s).is s = true := Token.Kind.is_iff.2 rfl

theorem Literal.denotes_token (value : Literal) : value.token.Denotes value := by
  cases value with
  -- the lemma is one of Batteries, which only the whole of Mathlib brings along
  | number x => exact ⟨_, rfl, Float.ofBits_toBits x⟩
  | string text => rfl
  | bool b => exact Token.is_of _
  | nil => exact Token.is_of _

section

variable {α : Type} {R : α → List Token → Prop} {xs ys : List α} {us : List (List Token)}
  {u v : List Token}

theorem InTurn.append (hu : InTurn R xs u) (hv : InTurn R ys v) : InTurn R (xs ++ ys) (u ++ v) := by
  induction hu with
  | nil => exact hv
  | cons ha _ ih =>
    rw [List.append_assoc]
    exact .cons ha ih

theorem separated_separate (h : List.Forall₂ R xs us) (hlen : xs.length ≤ Parser.maxArity) :
    Separated R xs (separate us) := by
  have hrest : ∀ {xs us}, List.Forall₂ R xs us →
      Continued R xs (us.flatMap (.of .comma :: ·)) := by
    intro xs us h
    induction h with
    | nil => exact .nil
    | cons hu _ ih => exact .cons (Token.is_of _) hu ih
  cases h with
  | nil => exact .nil
  | cons hu h => exact .cons hlen hu (hrest h)

end

theorem Token.tier_of_is {op : Token} {s : Symbol} (h : op.is s = true) : op.tier = s.tier := by
  rw [tier, Token.Kind.is_iff.1 h]

mutual

theorem Expr.written_tokens (e : Expr) {j : Nat} (h : e.Writable j) :
    Expr.Written j e e.tokens := by
  cases e with
  | literal value => exact .literal h value.denotes_token
  | grouping e => exact .grouping h.1 rfl (e.written_tokens h.2) rfl
  | unary op e => exact .unary h.1 h.2.1 (e.written_tokens h.2.2)
  | binary l op r | logical l op r =>
    obtain ⟨hj, hop, hl, hr⟩ := h
    obtain ⟨s, hs, his⟩ := List.any_eq_true.1 hop
    rw [Token.tier_of_is his] at hj hl hr
    cases s
    all_goals first
      | exact absurd hs (by decide)
      | have hw := Expr.Written.operation hj (by decide) rfl (l.written_tokens hl)
          (List.any_eq_true.2 ⟨_, by decide, his⟩) (r.written_tokens hr)
        exact hw
  | conditional c a b =>
    obtain ⟨hj, hc, ha, hb⟩ := h
    exact .conditional hj (c.written_tokens hc) rfl (a.written_tokens ha) rfl (b.written_tokens hb)
  | var id name => exact .var h.1 h.2
  | assign id name e => exact .assign h.1 h.2.1 rfl (e.written_tokens h.2.2)
  | call e paren es =>
    obtain ⟨hj, he, hparen, hlen, hes⟩ := h
    exact .call hj (e.written_tokens he) rfl
      (separated_separate (Exprs.written_tokens es hes) hlen) hparen
  | get e name => exact .get h.1 (e.written_tokens h.2.1) rfl h.2.2
  | set e name e₁ =>
    obtain ⟨hj, he, hname, he₁⟩ := h
    exact .set hj (e.written_tokens he) rfl hname rfl (e₁.written_tokens he₁)
  | thisRef id keyword => exact .thisRef h.1 h.2
  | superRef id keyword method => exact .superRef h.1 h.2.1 rfl h.2.2

theorem Exprs.written_tokens (es : List Expr) (h : Exprs.Writable es) :
    List.Forall₂ (Expr.Written 0) es (Exprs.tokens es) := by
  cases es with
  | nil => exact .nil
  | cons e es => exact .cons (e.written_tokens h.1) (Exprs.written_tokens es h.2)

end

theorem perhaps_behind {R : Expr → List Token → Prop} {o : Option Expr} {front : List Token}
    (h : ∀ e ∈ o, R e (front ++ e.tokens)) : Perhaps R o (Expr.behind front o) := by
  cases o with
  | none => exact .none
  | some e => exact .some (h e rfl)

mutual

/-- The tokens of a writable statement are a way to write it. -/
theorem Stmt.written_tokens (s : Stmt) {j : Nat} (h : s.Writable j) :
    Stmt.Written j s s.tokens := by
  cases s with
  | expression e => exact .expression h.1 (e.written_tokens h.2) rfl
  | print e => exact .print h.1 rfl (e.written_tokens h.2) rfl
  | varDecl name o =>
    obtain ⟨hj, hname, ho⟩ := h
    obtain rfl := Nat.le_zero.1 hj
    exact .varDecl rfl hname (perhaps_behind fun e he => .mk rfl (e.written_tokens (ho e he))) rfl
  | block ss => exact .block h.1 rfl (Stmts.written_tokens ss h.2) rfl
  | ifThen c s =>
    exact .ifThen h.1 rfl rfl (c.written_tokens h.2.1) rfl (s.written_tokens h.2.2)
  | ifElse c s s₁ =>
    obtain ⟨hc, hs, hs₁⟩ := h
    exact .ifElse (Nat.le_max_right 1 j) (Nat.le_max_left 1 j) rfl rfl (c.written_tokens hc) rfl
      (s.written_tokens hs) rfl (s₁.written_tokens hs₁)
  | whileLoop c s =>
    exact .whileLoop (Nat.le_max_right 1 j) (Nat.le_max_left 1 j) rfl rfl (c.written_tokens h.1) rfl
      (s.written_tokens h.2)
  | funDecl f =>
    obtain rfl := Nat.le_zero.1 h.1
    exact .funDecl rfl (f.written_tokens h.2)
  | returnWith keyword o =>
    obtain ⟨hj, hkeyword, ho⟩ := h
    exact .returnWith hj hkeyword (perhaps_behind fun e he => e.written_tokens (ho e he)) rfl
  | classDecl decl =>
    obtain ⟨name, o, methods, statics⟩ := decl
    obtain ⟨hj, hname, ho, hmethods, hstatics⟩ := h
    obtain rfl := Nat.le_zero.1 hj
    have hsuper : ∀ e ∈ o, Behind Expr.Named .less e ([.of .less] ++ e.tokens) := by
      intro e he
      obtain ⟨id, name, rfl, hname⟩ := ho e he
      exact .mk rfl ⟨id, name, rfl, hname, rfl⟩
    have hmembers := (FunctionDecls.written_tokens methods hmethods false [] .method).append
      (FunctionDecls.written_tokens statics hstatics true [.of .kwStatic] (.static rfl))
    have hw := Stmt.Written.classDecl (Token.is_of _) hname (perhaps_behind hsuper)
      (Token.is_of _) hmembers (Token.is_of _)
    simpa [Stmt.tokens, List.filter_map, Function.comp_def] using hw

theorem Stmts.written_tokens (ss : List Stmt) (h : Stmts.Writable ss) :
    InTurn (Stmt.Written 0) ss (Stmts.tokens ss) := by
  cases ss with
  | nil => exact .nil
  | cons s ss => exact .cons (s.written_tokens h.1) (Stmts.written_tokens ss h.2)

theorem FunctionDecl.written_tokens (f : FunctionDecl) (h : f.Writable) :
    FunctionDecl.Written f f.tokens := by
  obtain ⟨name, params, body⟩ := f
  obtain ⟨hname, hparams, hlen, hbody⟩ := h
  have hlist : List.Forall₂ Token.Named params (params.map ([·])) :=
    List.forall₂_map_right_iff.2 (List.forall₂_same.2 fun p hp => ⟨hparams p hp, rfl⟩)
  exact .mk hname rfl (separated_separate hlist hlen) rfl rfl (Stmts.written_tokens body hbody) rfl

theorem FunctionDecls.written_tokens (fs : List FunctionDecl)
    (h : FunctionDecls.Writable fs) (static : Bool) (front : List Token)
    (hfront : ∀ {f w}, FunctionDecl.Written f w → Member.Written (static, f) (front ++ w)) :
    InTurn Member.Written (fs.map (Prod.mk static)) (FunctionDecls.tokens front fs) := by
  cases fs with
  | nil => exact .nil
  | cons f fs =>
    exact .cons (hfront (f.written_tokens h.1))
      (FunctionDecls.written_tokens fs h.2 static front hfront)

end

end Lox
