import Lox.Proofs.Syntax.Grammar
import Lox.Proofs.Syntax.Writing

/-!
# What derives from the grammar is written as a tree

The grammar is ambiguous, and trees are not. A fallback behind a conditional `c ? a : b ?? d` may
belong to the conditional or to its last branch, and an `else` may belong to several `if`s. A tree
has the fallback in the branch, which is an expression together with it, and the `else` in the last
`if`. So whatever derives from a rule is written as a tree of the level of the rule.

What derives from the rules is the least that fits them. So it is enough to show that each rule
stands for written trees if the rules that it refers to do.
-/

namespace Lox

/-! ## The least that fits the rules -/

section

variable (L : Nonterminal → List Token → Prop)

mutual

/-- What an expression of the grammar stands for, if the rules stand for what `L` says. -/
def Ebnf.Matches : Ebnf → List Token → Prop
  | .symbol s, w => ∃ t, w = [t] ∧ t.is s = true
  | .number, w => ∃ t x, w = [t] ∧ t.kind = .number x
  | .string, w => ∃ t text, w = [t] ∧ t.kind = .string text
  | .rule n, w => L n w
  | .seq es, w => Ebnf.MatchesAll es w
  | .choice es, w => Ebnf.MatchesAny es w
  | .opt e, w => w = [] ∨ e.Matches w
  | .many e, w => ∃ us : List Unit, InTurn (fun _ => e.Matches) us w
  | .list limit e, w => ∃ (us : List Unit) (u v : _), w = u ++ v ∧ us.length < limit ∧ e.Matches u ∧
      Continued (fun _ => e.Matches) us v

/-- What a sequence stands for. -/
def Ebnf.MatchesAll : List Ebnf → List Token → Prop
  | [], w => w = []
  | [e], w => e.Matches w
  | e :: e' :: es, w => ∃ u v, w = u ++ v ∧ e.Matches u ∧ Ebnf.MatchesAll (e' :: es) v

/-- What a choice stands for. -/
def Ebnf.MatchesAny : List Ebnf → List Token → Prop
  | [], _ => False
  | e :: es, w => e.Matches w ∨ Ebnf.MatchesAny es w

end

variable {L}

theorem Ebnf.matchesAny_of_mem {e : Ebnf} {es : List Ebnf} {w : List Token} (he : e ∈ es)
    (h : e.Matches L w) : Ebnf.MatchesAny L es w := by
  induction es with
  | nil => cases he
  | cons e' es ih =>
    rcases List.mem_cons.1 he with rfl | he
    · exact .inl h
    · exact .inr (ih he)

/-- What derives is as `L` says, if the rules keep to `L`. -/
theorem Derives.matches (hL : ∀ n w, (rules n).Matches L w → L n w) {e : Ebnf} {w : List Token}
    (h : Derives e w) : e.Matches L w := by
  induction h with
  | symbol ht => exact ⟨_, rfl, ht⟩
  | number ht => exact ⟨_, _, rfl, ht⟩
  | string ht => exact ⟨_, _, rfl, ht⟩
  | rule _ ih => exact hL _ _ ih
  | nil => rfl
  | @cons e es u v _ _ ihu ihv =>
    cases es with
    | nil =>
      obtain rfl : v = [] := ihv
      exact (List.append_nil u).symm ▸ ihu
    | cons e' es => exact ⟨u, v, rfl, ihu, ihv⟩
  | choice he _ ih => exact Ebnf.matchesAny_of_mem he ih
  | optNone => exact .inl rfl
  | optSome _ ih => exact .inr ih
  | manyNil => exact ⟨[], .nil⟩
  | manyCons _ _ ihu ihv =>
    obtain ⟨us, hv⟩ := ihv
    exact ⟨() :: us, .cons ihu hv⟩
  | @listOne _ _ w _ ih => exact ⟨[], w, [], (List.append_nil w).symm, Nat.succ_pos _, ih, .nil⟩
  | listCons _ ht _ ihu ihv =>
    obtain ⟨us, u, v, rfl, hlen, hu, hv⟩ := ihv
    exact ⟨() :: us, _, _, rfl, Nat.succ_lt_succ hlen, ihu, .cons ht hu hv⟩

end

section

variable {α β : Type} {R : α → List Token → Prop} {S : β → List Token → Prop} {xs : List α}
  {w : List Token} (h : ∀ x u, R x u → ∃ y, S y u)
include h

theorem InTurn.exists_of (hw : InTurn R xs w) : ∃ ys, InTurn S ys w := by
  induction hw with
  | nil => exact ⟨[], .nil⟩
  | cons hu _ ih =>
    obtain ⟨y, hy⟩ := h _ _ hu
    obtain ⟨ys, hys⟩ := ih
    exact ⟨y :: ys, .cons hy hys⟩

theorem Continued.exists_of (hw : Continued R xs w) :
    ∃ ys : List β, ys.length = xs.length ∧ Continued S ys w := by
  induction hw with
  | nil => exact ⟨[], rfl, .nil⟩
  | cons ht hu _ ih =>
    obtain ⟨y, hy⟩ := h _ _ hu
    obtain ⟨ys, hlen, hys⟩ := ih
    exact ⟨y :: ys, congrArg (· + 1) hlen, .cons ht hy hys⟩

end

/-! ## Ambiguities -/

theorem Expr.Written.loosen {j k : Nat} {e : Expr} {w : List Token}
    (h : Expr.Written j e w) (hk : k ≤ j) : Expr.Written k e w := by
  cases h with
  | operation hj hi hlevel hl hop hr => exact .operation (by omega) hi hlevel hl hop hr
  | _ => constructor <;> first | assumption | omega

theorem Stmt.Written.loosen {j : Nat} {s : Stmt} {w : List Token}
    (h : Stmt.Written j s w) : Stmt.Written 0 s w := by
  cases h <;> constructor <;> first | assumption | omega

/-- An expression with a fallback behind it is an expression, whatever it ends with. -/
theorem Expr.Written.fallback {j : Nat} {e r : Expr} {w v : List Token} {op : Token}
    (h : Expr.Written j e w) (hj : j ≤ 1) (hop : op.is .questionQuestion = true)
    (hv : Expr.Written 0 r v) : ∃ e, Expr.Written j e (w ++ op :: v) := by
  have htight : Expr.Written 2 e w → ∃ e, Expr.Written j e (w ++ op :: v) :=
    fun h => ⟨_, .coalesce hj h hop hv⟩
  cases h with
  | conditional _ hc ht ha ht₁ hb =>
    obtain ⟨b, hb⟩ := hb.fallback (by omega) hop hv
    exact ⟨_, by simpa using .conditional hj hc ht ha ht₁ hb⟩
  | coalesce _ hl ht hr =>
    obtain ⟨r, hr⟩ := hr.fallback (by omega) hop hv
    exact ⟨_, by simpa using .coalesce hj hl ht hr⟩
  | assign hj hname ht he =>
    obtain ⟨e, he⟩ := he.fallback (by omega) hop hv
    exact ⟨.assign 0 _ e, .assign hj hname ht he⟩
  | set hj hl ht hname ht₁ he =>
    obtain ⟨e, he⟩ := he.fallback (by omega) hop hv
    exact ⟨_, by simpa using .set hj hl ht hname ht₁ he⟩
  | _ => exact htight (by constructor <;> first | assumption | omega)
termination_by w.length
decreasing_by
  all_goals
    subst_vars
    simp
    try omega

/-- An `else` behind a statement is part of it, unless the statement is of the last level. -/
theorem Stmt.Written.last_or_else {j : Nat} {s : Stmt} {w : List Token}
    (h : Stmt.Written j s w) (hj : 1 ≤ j) : Stmt.Written 2 s w ∨
      ∀ {t s₁ v}, t.is .kwElse = true → Stmt.Written 1 s₁ v →
        ∃ s, Stmt.Written 1 s (w ++ t :: v) := by
  cases h with
  | ifThen _ ht ht₁ hc ht₂ hs =>
    refine .inr fun helse hs₁ => ?_
    rcases hs.last_or_else (Nat.le_refl _) with hs | hs
    · exact ⟨_, by simpa using .ifElse (Nat.le_refl 1) (Nat.le_refl 1) ht ht₁ hc ht₂ hs helse hs₁⟩
    · obtain ⟨s, hs⟩ := hs helse hs₁
      exact ⟨_, by simpa using .ifThen (Nat.le_refl 1) ht ht₁ hc ht₂ hs⟩
  | ifElse hk hk₁ ht ht₁ hc ht₂ hs ht₃ hs₁ =>
    refine (hs₁.last_or_else hk₁).imp
      (.ifElse (Nat.le_refl 2) (by omega) ht ht₁ hc ht₂ hs ht₃) fun hs₁ _ _ _ helse hs₂ => ?_
    obtain ⟨s, hs₁⟩ := hs₁ helse hs₂
    exact ⟨_, by simpa using .ifElse (Nat.le_refl 1) (Nat.le_refl 1) ht ht₁ hc ht₂ hs ht₃ hs₁⟩
  | whileLoop hk hk₁ ht ht₁ hc ht₂ hs =>
    refine (hs.last_or_else hk₁).imp (.whileLoop (Nat.le_refl 2) (by omega) ht ht₁ hc ht₂)
      fun hs _ _ _ helse hs₁ => ?_
    obtain ⟨s, hs⟩ := hs helse hs₁
    exact ⟨_, by simpa using .whileLoop (Nat.le_refl 1) (Nat.le_refl 1) ht ht₁ hc ht₂ hs⟩
  | forLoop hk hk₁ ht ht₁ ho hc ht₂ hc₁ ht₃ hs =>
    refine (hs.last_or_else hk₁).imp
      (.forLoop (Nat.le_refl 2) (by omega) ht ht₁ ho hc ht₂ hc₁ ht₃)
      fun hs _ _ _ helse hs₁ => ?_
    obtain ⟨s, hs⟩ := hs helse hs₁
    have hfor := Stmt.Written.forLoop (Nat.le_refl 1) (Nat.le_refl 1) ht ht₁ ho hc ht₂ hc₁
      ht₃ hs
    simp only [List.append_assoc, List.cons_append] at hfor ⊢
    exact ⟨_, hfor⟩
  | _ => first
    | omega
    | exact .inl (by constructor <;> first | assumption | omega)
termination_by w.length
decreasing_by
  all_goals
    subst_vars
    simp
    try omega

/-! ## The rules -/

/-- What a rule stands for: the tokens of trees of its level. -/
def Nonterminal.Spells : Nonterminal → List Token → Prop
  | .program, w => ∃ ss u e, w = u ++ [e] ∧ InTurn (Stmt.Written 0) ss u
  | .declaration, w | .classDecl, w | .funDecl, w => ∃ s, Stmt.Written 0 s w
  | .varDecl, w => ∃ name o, Stmt.BeforeLoop (some (.varDecl name o)) w
  | .function, w => ∃ f, FunctionDecl.Written f w
  | .exprStmt, w => ∃ e, Stmt.BeforeLoop (some (.expression e)) w
  | .statement, w | .forStmt, w | .ifStmt, w | .printStmt, w | .returnStmt, w | .whileStmt, w =>
    ∃ s, Stmt.Written 1 s w
  | .block, w => ∃ t ss u t₁, w = t :: (u ++ [t₁]) ∧ t.is .leftBrace = true ∧
      InTurn (Stmt.Written 0) ss u ∧ t₁.is .rightBrace = true
  | .parameters, w => ∃ ps, Separated Token.Named ps w
  | .arguments, w => ∃ es, Separated (Expr.Written 0) es w
  | .expression, w | .assignment, w => ∃ e, Expr.Written 0 e w
  | .nullCoalesce, w | .ternary, w => ∃ e, Expr.Written 1 e w
  | .logicOr, w => ∃ e, Expr.Written 2 e w
  | .logicAnd, w => ∃ e, Expr.Written 3 e w
  | .equality, w => ∃ e, Expr.Written 4 e w
  | .comparison, w => ∃ e, Expr.Written 5 e w
  | .term, w => ∃ e, Expr.Written 6 e w
  | .factor, w => ∃ e, Expr.Written 7 e w
  | .unary, w => ∃ e, Expr.Written 8 e w
  | .call, w => ∃ e, Expr.Written 9 e w
  | .primary, w => ∃ e, Expr.Written 10 e w

namespace Nonterminal

variable {w : List Token}

theorem separated_of_list {e : Ebnf} {R : α → List Token → Prop}
    (hw : (Ebnf.list Parser.maxArity e).Matches Spells w)
    (h : ∀ u, e.Matches Spells u → ∃ a, R a u) : ∃ as, Separated R as w := by
  obtain ⟨us, u, v, rfl, hlen, hu, hv⟩ := hw
  obtain ⟨a, ha⟩ := h u hu
  obtain ⟨as, has, hv⟩ := hv.exists_of fun _ => h
  exact ⟨a :: as, .cons (by omega) ha hv⟩

theorem separated_of_opt {R : α → List Token → Prop}
    (h : w = [] ∨ ∃ as, Separated R as w) : ∃ as, Separated R as w := by
  rcases h with rfl | h
  · exact ⟨[], .nil⟩
  · exact h

theorem spells_primary (h : (rules .primary).Matches Spells w) : Spells .primary w := by
  rcases h with ⟨t, x, rfl, ht⟩ | ⟨t, x, rfl, ht⟩ | ⟨t, rfl, ht⟩ | ⟨t, rfl, ht⟩ | ⟨t, rfl, ht⟩ |
    ⟨t, rfl, ht⟩ | ⟨t, rfl, ht⟩ | ⟨_, _, rfl, ⟨t, rfl, ht⟩, _, _, rfl, ⟨e, he⟩, t₁, rfl, ht₁⟩ |
    ⟨_, _, rfl, ⟨t, rfl, ht⟩, _, _, rfl, ⟨t₁, rfl, ht₁⟩, name, rfl, hname⟩ | ⟨⟨⟩⟩
  · exact ⟨.literal (.number x.toFloat), .literal (by decide) ⟨x, ht, rfl⟩⟩
  · exact ⟨.literal (.string x), .literal (by decide) ht⟩
  · exact ⟨.literal (.bool true), .literal (by decide) ht⟩
  · exact ⟨.literal (.bool false), .literal (by decide) ht⟩
  · exact ⟨.literal .nil, .literal (by decide) ht⟩
  · exact ⟨.thisRef 0 t, .thisRef (by decide) ht⟩
  · exact ⟨.var 0 t, .var (by decide) ht⟩
  · exact ⟨.grouping e, .grouping (by decide) ht he ht₁⟩
  · exact ⟨.superRef 0 t name, .superRef (by decide) ht ht₁ hname⟩

theorem spells_call (h : (rules .call).Matches Spells w) : Spells .call w := by
  obtain ⟨u, v, rfl, ⟨e, he⟩, us, hv⟩ := h
  replace he := he.loosen (by decide : 9 ≤ 10)
  induction hv generalizing e u with
  | nil => exact ⟨e, (List.append_nil u).symm ▸ he⟩
  | cons hs _ ih =>
    rw [← List.append_assoc]
    rcases hs with ⟨_, _, rfl, ⟨t, rfl, ht⟩, x, _, rfl, hx, t₁, rfl, ht₁⟩ |
      ⟨_, _, rfl, ⟨t, rfl, ht⟩, name, rfl, hname⟩ | ⟨⟨⟩⟩
    · obtain ⟨es, hes⟩ := separated_of_opt hx
      exact ih _ _ (.call (by decide) he ht hes ht₁)
    · exact ih _ _ (.get (by decide) he ht hname)

theorem exists_operator (ss : List Symbol) (h : (Ebnf.choice (ss.map .symbol)).Matches Spells w) :
    ∃ t s, w = [t] ∧ s ∈ ss ∧ t.is s = true := by
  induction ss with
  | nil => exact h.elim
  | cons s ss ih =>
    rcases h with ⟨t, rfl, ht⟩ | h
    · exact ⟨t, s, rfl, List.mem_cons_self, ht⟩
    · obtain ⟨t, s, rfl, hs, ht⟩ := ih h
      exact ⟨t, s, rfl, List.mem_cons_of_mem _ hs, ht⟩

theorem spells_chain {operand : Nonterminal} {ss : List Symbol} {level : Parser.Level} (k : Nat)
    (h : (Ebnf.chain operand ss).Matches Spells w) (hlevel : Parser.levels[k]? = some level)
    (hk : k < 6) (hss : ∀ s ∈ ss, s ∈ level.operators)
    (hoperand : ∀ u, operand.Spells u → ∃ e, Expr.Written (k + 3) e u) :
    ∃ e, Expr.Written (k + 2) e w := by
  obtain ⟨u, v, rfl, hu, us, hv⟩ := h
  obtain ⟨e, he⟩ := hoperand u hu
  replace he := he.loosen (Nat.le_succ (k + 2))
  clear hu
  induction hv generalizing e u with
  | nil => exact ⟨e, (List.append_nil u).symm ▸ he⟩
  | cons hs _ ih =>
    obtain ⟨_, x, rfl, hop, hx⟩ := hs
    obtain ⟨op, s, rfl, hs, his⟩ := exists_operator ss hop
    obtain ⟨r, hr⟩ := hoperand x hx
    have hany := List.any_eq_true.2 ⟨s, hss s hs, his⟩
    rw [← List.append_assoc]
    exact ih _ _ (.operation (Nat.le_refl _) hk hlevel he hany hr)

theorem spells_ternary (h : (rules .ternary).Matches Spells w) : Spells .ternary w := by
  obtain ⟨u, v, rfl, ⟨c, hc⟩, rfl | ⟨_, _, rfl, ⟨t, rfl, ht⟩, _, _, rfl, ⟨a, ha⟩, _, _, rfl,
    ⟨t₁, rfl, ht₁⟩, b, hb⟩⟩ := h
  · exact ⟨c, (List.append_nil u).symm ▸ hc.loosen (by decide)⟩
  · exact ⟨_, .conditional (Nat.le_refl 1) hc ht ha ht₁ hb⟩

theorem spells_nullCoalesce (h : (rules .nullCoalesce).Matches Spells w) :
    Spells .nullCoalesce w := by
  obtain ⟨u, v, rfl, ⟨l, hl⟩, rfl | ⟨_, _, rfl, ⟨op, rfl, hop⟩, r, hr⟩⟩ := h
  · exact ⟨l, (List.append_nil u).symm ▸ hl⟩
  · exact hl.fallback (Nat.le_refl 1) hop hr

theorem spells_assignment (h : (rules .assignment).Matches Spells w) : Spells .assignment w := by
  rcases h with ⟨_, _, rfl, hu, _, _, rfl, ⟨name, rfl, hname⟩, _, _, rfl, ⟨t, rfl, ht⟩, e, he⟩ |
    ⟨e, he⟩ | ⟨⟨⟩⟩
  · rcases hu with rfl | ⟨u, _, rfl, ⟨l, hl⟩, t₁, rfl, ht₁⟩
    · exact ⟨.assign 0 name e, .assign (Nat.le_refl 0) hname ht he⟩
    · exact ⟨_, by simpa using .set (Nat.le_refl 0) hl ht₁ hname ht he⟩
  · exact ⟨e, he.loosen (by decide)⟩

/-- A part of a rule that may be missing. -/
theorem perhaps_of_opt {e : Ebnf} {R : α → List Token → Prop}
    (h : e.Matches Spells w → ∃ a, R a w) (hw : (Ebnf.opt e).Matches Spells w) :
    ∃ o, Perhaps R o w := by
  rcases hw with rfl | hw
  · exact ⟨none, .none⟩
  · obtain ⟨a, ha⟩ := h hw
    exact ⟨some a, .some ha⟩

theorem spells_classDecl (h : (rules .classDecl).Matches Spells w) : Spells .classDecl w := by
  obtain ⟨_, _, rfl, ⟨t, rfl, ht⟩, _, _, rfl, ⟨name, rfl, hname⟩, u, _, rfl, ho, _, _, rfl,
    ⟨t₁, rfl, ht₁⟩, v, _, rfl, ⟨us, hv⟩, t₂, rfl, ht₂⟩ := h
  obtain ⟨o, ho⟩ : ∃ o, Perhaps (Behind Expr.Named .less) o u := by
    refine perhaps_of_opt ?_ ho
    rintro ⟨_, _, rfl, ⟨t, rfl, ht⟩, name, rfl, hname⟩
    exact ⟨.var 0 name, .mk ht ⟨0, name, rfl, hname, rfl⟩⟩
  obtain ⟨ms, hms⟩ : ∃ ms, InTurn (Member.Written) ms v := by
    refine hv.exists_of ?_
    rintro - _ ⟨_, x, rfl, rfl | ⟨t, rfl, ht⟩, f, hf⟩
    · exact ⟨(false, f), .method hf⟩
    · exact ⟨(true, f), .static ht hf⟩
  exact ⟨_, .classDecl ht hname ho ht₁ hms ht₂⟩

theorem spells_function (h : (rules .function).Matches Spells w) : Spells .function w := by
  obtain ⟨_, _, rfl, ⟨name, rfl, hname⟩, _, _, rfl, ⟨t, rfl, ht⟩, u, _, rfl, hu, _, _, rfl,
    ⟨t₁, rfl, ht₁⟩, t₂, ss, v, t₃, rfl, ht₂, hss, ht₃⟩ := h
  obtain ⟨ps, hps⟩ := separated_of_opt hu
  exact ⟨_, .mk hname ht hps ht₁ ht₂ hss ht₃⟩

theorem spells_varDecl (h : (rules .varDecl).Matches Spells w) : Spells .varDecl w := by
  obtain ⟨_, _, rfl, ⟨t, rfl, ht⟩, _, _, rfl, ⟨name, rfl, hname⟩, u, _, rfl, ho, t₁, rfl, ht₁⟩ := h
  obtain ⟨o, ho⟩ : ∃ o, Perhaps (Behind (Expr.Written 0) .equal) o u := by
    refine perhaps_of_opt ?_ ho
    rintro ⟨_, _, rfl, ⟨t, rfl, ht⟩, e, he⟩
    exact ⟨e, .mk ht he⟩
  exact ⟨name, o, .varDecl ht hname ho ht₁⟩

theorem spells_forStmt (h : (rules .forStmt).Matches Spells w) : Spells .forStmt w := by
  obtain ⟨_, _, rfl, ⟨t, rfl, ht⟩, _, _, rfl, ⟨t₁, rfl, ht₁⟩, u, _, rfl, ho, v, _, rfl, hv, _, _,
    rfl, ⟨t₂, rfl, ht₂⟩, x, _, rfl, hx, _, _, rfl, ⟨t₃, rfl, ht₃⟩, s, hs⟩ := h
  obtain ⟨o, ho⟩ : ∃ o, Stmt.BeforeLoop o u := by
    rcases ho with ⟨name, o, ho⟩ | ⟨e, he⟩ | ⟨t, rfl, ht⟩ | ⟨⟨⟩⟩
    · exact ⟨_, ho⟩
    · exact ⟨_, he⟩
    · exact ⟨none, .none ht⟩
  obtain ⟨c, hc⟩ := perhaps_of_opt id hv
  obtain ⟨c₁, hc₁⟩ := perhaps_of_opt id hx
  have hfor := Stmt.Written.forLoop (Nat.le_refl 1) (Nat.le_refl 1) ht ht₁ ho hc ht₂ hc₁
    ht₃ hs
  rw [List.append_assoc] at hfor
  exact ⟨_, hfor⟩

theorem spells_ifStmt (h : (rules .ifStmt).Matches Spells w) : Spells .ifStmt w := by
  obtain ⟨_, _, rfl, ⟨t, rfl, ht⟩, _, _, rfl, ⟨t₁, rfl, ht₁⟩, _, _, rfl, ⟨c, hc⟩, _, _, rfl,
    ⟨t₂, rfl, ht₂⟩, v, _, rfl, ⟨s, hs⟩, rfl | ⟨_, _, rfl, ⟨t₃, rfl, ht₃⟩, s₁, hs₁⟩⟩ := h
  · rw [List.append_nil]
    exact ⟨_, .ifThen (Nat.le_refl 1) ht ht₁ hc ht₂ hs⟩
  · rcases hs.last_or_else (Nat.le_refl 1) with hs | hs
    · exact ⟨_, .ifElse (Nat.le_refl 1) (Nat.le_refl 1) ht ht₁ hc ht₂ hs ht₃ hs₁⟩
    · obtain ⟨s, hs⟩ := hs ht₃ hs₁
      exact ⟨_, .ifThen (Nat.le_refl 1) ht ht₁ hc ht₂ hs⟩

/-- What a rule stands for is written, if what it refers to is. -/
theorem spells_of_matches : ∀ n w, (rules n).Matches Spells w → n.Spells w
  | .program, _, ⟨u, _, rfl, ⟨_, hu⟩, e, rfl, _⟩ => by
    obtain ⟨ss, hss⟩ := hu.exists_of fun _ _ h => h
    exact ⟨ss, u, e, rfl, hss⟩
  | .declaration, _, h => by
    rcases h with h | h | ⟨name, o, h⟩ | ⟨s, hs⟩ | ⟨⟨⟩⟩
    · exact h
    · exact h
    · cases h with
      | varDecl ht hname ho ht₁ => exact ⟨_, .varDecl ht hname ho ht₁⟩
    · exact ⟨s, hs.loosen⟩
  | .classDecl, _, h => spells_classDecl h
  | .funDecl, _, ⟨_, _, rfl, ⟨t, rfl, ht⟩, f, hf⟩ => ⟨.funDecl f, .funDecl ht hf⟩
  | .function, _, h => spells_function h
  | .varDecl, _, h => spells_varDecl h
  | .statement, _, h => by
    rcases h with ⟨e, h⟩ | h | h | h | h | h | ⟨t, ss, u, t₁, rfl, ht, hss, ht₁⟩ | ⟨⟨⟩⟩
    · cases h with
      | expression he ht => exact ⟨_, .expression (by decide) he ht⟩
    · exact h
    · exact h
    · exact h
    · exact h
    · exact h
    · exact ⟨.block ss, .block (by decide) ht hss ht₁⟩
  | .exprStmt, _, ⟨_, _, rfl, ⟨e, he⟩, t, rfl, ht⟩ => ⟨e, .expression he ht⟩
  | .forStmt, _, h => spells_forStmt h
  | .ifStmt, _, h => spells_ifStmt h
  | .printStmt, _, ⟨_, _, rfl, ⟨t, rfl, ht⟩, _, _, rfl, ⟨e, he⟩, t₁, rfl, ht₁⟩ =>
    ⟨.print e, .print (by decide) ht he ht₁⟩
  | .returnStmt, _, ⟨_, _, rfl, ⟨t, rfl, ht⟩, _, _, rfl, ho, t₁, rfl, ht₁⟩ => by
    obtain ⟨o, ho⟩ := perhaps_of_opt id ho
    exact ⟨.returnWith t o, .returnWith (by decide) ht ho ht₁⟩
  | .whileStmt, _, ⟨_, _, rfl, ⟨t, rfl, ht⟩, _, _, rfl, ⟨t₁, rfl, ht₁⟩, _, _, rfl, ⟨c, hc⟩, _, _,
      rfl, ⟨t₂, rfl, ht₂⟩, s, hs⟩ =>
    ⟨.whileLoop c s, .whileLoop (Nat.le_refl 1) (Nat.le_refl 1) ht ht₁ hc ht₂ hs⟩
  | .block, _, ⟨_, _, rfl, ⟨t, rfl, ht⟩, u, _, rfl, ⟨_, hu⟩, t₁, rfl, ht₁⟩ => by
    obtain ⟨ss, hss⟩ := hu.exists_of fun _ _ h => h
    exact ⟨t, ss, u, t₁, rfl, ht, hss, ht₁⟩
  | .parameters, _, h => separated_of_list h fun _ ⟨t, hu, ht⟩ => ⟨t, ht, hu⟩
  | .expression, _, h => h
  | .assignment, _, h => spells_assignment h
  | .nullCoalesce, _, h => spells_nullCoalesce h
  | .ternary, _, h => spells_ternary h
  | .logicOr, _, h => spells_chain 0 h rfl (by decide) (by simp) fun _ h => h
  | .logicAnd, _, h => spells_chain 1 h rfl (by decide) (by simp) fun _ h => h
  | .equality, _, h => spells_chain 2 h rfl (by decide) (by simp) fun _ h => h
  | .comparison, _, h => spells_chain 3 h rfl (by decide) (by simp) fun _ h => h
  | .term, _, h => spells_chain 4 h rfl (by decide) (by simp) fun _ h => h
  | .factor, _, h => spells_chain 5 h rfl (by decide) (by simp) fun _ h => h
  | .unary, _, h => by
    rcases h with ⟨_, _, rfl, h, e, he⟩ | ⟨e, he⟩ | ⟨⟨⟩⟩
    · obtain ⟨op, s, rfl, hop⟩ := exists_operator [.bang, .minus] h
      exact ⟨.unary op e, .unary (by decide) (List.any_eq_true.2 ⟨s, hop⟩) he⟩
    · exact ⟨e, he.loosen (by decide)⟩
  | .call, _, h => spells_call h
  | .arguments, _, h => separated_of_list h fun _ h => h
  | .primary, _, h => spells_primary h

end Nonterminal

/-- What derives from a rule is written as a tree. -/
theorem Derives.spells {n : Nonterminal} {w : List Token} (h : Derives (.rule n) w) : n.Spells w :=
  h.matches Nonterminal.spells_of_matches

end Lox
