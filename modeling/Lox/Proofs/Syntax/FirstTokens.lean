import Lox.Proofs.Syntax.Writing

/-!
# How written trees start

What trees are written as starts with tokens of few kinds, so it can be told from its first token
whether an operand has a sign in front, and whether a statement or the end of a block comes next.
-/

namespace Lox

/-- What an operand of an operator starts with, if it does not start with a constant. -/
def operandFirsts : List Symbol :=
  [.kwTrue, .kwFalse, .kwNil, .kwThis, .identifier, .leftParen, .kwSuper]

def exprFirsts : List Symbol := .bang :: .minus :: operandFirsts

def stmtFirsts : List Symbol :=
  [.kwFor, .kwIf, .kwPrint, .kwReturn, .kwWhile, .leftBrace] ++ exprFirsts

def declFirsts : List Symbol := [.kwClass, .kwFun, .kwVar] ++ stmtFirsts

/-- The tokens start with a constant or with one of the symbols. -/
def StartsWith (ss : List Symbol) (w : List Token) : Prop :=
  ∃ t v, w = t :: v ∧ ∀ s, t.is s = true → s ∈ ss

section

variable {ss : List Symbol} {w : List Token}

theorem StartsWith.ne_nil (h : StartsWith ss w) : w ≠ [] := by
  obtain ⟨t, v, rfl, -⟩ := h
  exact List.cons_ne_nil t v

theorem StartsWith.mono {ss' : List Symbol} (h : StartsWith ss w) (hs : ss ⊆ ss') :
    StartsWith ss' w := by
  obtain ⟨t, v, rfl, ht⟩ := h
  exact ⟨t, v, rfl, fun s h => hs (ht s h)⟩

theorem StartsWith.append (h : StartsWith ss w) (v : List Token) : StartsWith ss (w ++ v) := by
  obtain ⟨t, u, rfl, ht⟩ := h
  exact ⟨t, u ++ v, rfl, ht⟩

theorem startsWith_cons {t : Token} {s : Symbol} {v : List Token} (h : t.is s = true)
    (hs : s ∈ ss) : StartsWith ss (t :: v) := by
  refine ⟨t, v, rfl, fun s' h' => ?_⟩
  rwa [Token.Kind.symbol.inj ((Token.Kind.is_iff.1 h').symm.trans (Token.Kind.is_iff.1 h))]

end

theorem Token.Denotes.starts {t : Token} {value : Literal} (h : t.Denotes value) :
    StartsWith operandFirsts [t] := by
  cases value with
  | number x =>
    obtain ⟨d, hd, -⟩ := h
    exact ⟨t, [], rfl, fun s hs => by cases hd.symm.trans (Token.Kind.is_iff.1 hs)⟩
  | string text =>
    exact ⟨t, [], rfl, fun s hs => by cases Eq.trans h.symm (Token.Kind.is_iff.1 hs)⟩
  | bool b => cases b <;> exact startsWith_cons h (by decide)
  | nil => exact startsWith_cons h (by decide)

/-- A sign is in front of an expression only if it is looser than what can be called. -/
theorem Expr.Written.starts {j : Nat} {e : Expr} {w : List Token} (h : Expr.Written j e w)
    {ss : List Symbol} (hss : operandFirsts ⊆ ss) (hsigns : j < 9 → exprFirsts ⊆ ss) :
    StartsWith ss w := by
  cases h with
  | literal _ h => exact h.starts.mono hss
  | var _ h => exact startsWith_cons h (hss (by decide))
  | thisRef _ h => exact startsWith_cons h (hss (by decide))
  | superRef _ h => exact startsWith_cons h (hss (by decide))
  | grouping _ h => exact startsWith_cons h (hss (by decide))
  | call _ h => exact (h.starts hss (by omega)).append _
  | get _ h => exact (h.starts hss (by omega)).append _
  | unary hj h =>
    obtain ⟨s, hs, h⟩ := List.any_eq_true.1 h
    exact startsWith_cons h (hsigns (by omega)
      ((by decide : ∀ s ∈ [Symbol.bang, .minus], s ∈ exprFirsts) s hs))
  | operation hj _ _ h => exact (h.starts hss fun _ => hsigns (by omega)).append _
  | conditional hj h => exact (h.starts hss fun _ => hsigns (by omega)).append _
  | coalesce hj h => exact (h.starts hss fun _ => hsigns (by omega)).append _
  | assign _ h => exact startsWith_cons h (hss (by decide))
  | set _ h => exact (h.starts hss (by omega)).append _
termination_by w.length
decreasing_by
  all_goals
    subst_vars
    simp

theorem Expr.Written.starts_expression {j : Nat} {e : Expr} {w : List Token}
    (h : Expr.Written j e w) : StartsWith exprFirsts w :=
  h.starts (by decide) fun _ => List.Subset.refl _

theorem Stmt.Written.starts {j : Nat} {s : Stmt} {w : List Token} (h : Stmt.Written j s w)
    {ss : List Symbol} (hss : stmtFirsts ⊆ ss) (hdecl : j = 0 → declFirsts ⊆ ss) :
    StartsWith ss w := by
  cases h with
  | expression _ h =>
    have hexpr : exprFirsts ⊆ ss := List.Subset.trans (by decide) hss
    exact (h.starts_expression.mono hexpr).append _
  | print _ h => exact startsWith_cons h (hss (by decide))
  | returnWith _ h => exact startsWith_cons h (hss (by decide))
  | block _ h => exact startsWith_cons h (hss (by decide))
  | ifThen _ h => exact startsWith_cons h (hss (by decide))
  | ifElse _ _ h => exact startsWith_cons h (hss (by decide))
  | whileLoop _ _ h => exact startsWith_cons h (hss (by decide))
  | forLoop _ _ h => exact startsWith_cons h (hss (by decide))
  | varDecl h => exact startsWith_cons h (hdecl rfl (by decide))
  | funDecl h => exact startsWith_cons h (hdecl rfl (by decide))
  | classDecl h => exact startsWith_cons h (hdecl rfl (by decide))

theorem Stmt.Written.starts_declaration {j : Nat} {s : Stmt} {w : List Token}
    (h : Stmt.Written j s w) : StartsWith declFirsts w :=
  h.starts (by decide) fun _ => List.Subset.refl _

theorem FunctionDecl.Written.starts {f : FunctionDecl} {w : List Token}
    (h : FunctionDecl.Written f w) : StartsWith [.identifier] w := by
  obtain ⟨hname⟩ := h
  exact startsWith_cons hname (by decide)

theorem Member.Written.starts {m : Bool × FunctionDecl} {w : List Token} (h : Member.Written m w) :
    StartsWith [.identifier, .kwStatic] w := by
  cases h with
  | method hf => exact hf.starts.mono (by decide)
  | static ht => exact startsWith_cons ht (by decide)

end Lox
