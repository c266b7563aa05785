import Lox.Proofs.Parser.Recognition
import Lox.Proofs.Syntax.Positions

/-!
# What is read as an expression

The tokens that are read as an expression derive from the rules for expressions. The nodes of the
tree are numbered in the order in which they are read. With faults as well, numbers for nodes are
given out in order, and each one once. So the parts of an expression that have been read so far have
unambiguous numbers below the next one, and no two of them have a number in common. Only `??` puts a
part into the tree twice.
-/

namespace Lox.Parser

open Parts

variable {K : Token → Prop} {i j k : NodeId} {w : List Token} {e : Expr} {level : Level}
  {operators : List Symbol}

/-- The tokens of an expression that a value may be stored in: a name, or a property behind
what can be called. -/
def Target (w : List Token) : Expr → Prop
  | .var _ name => w = [name] ∧ name.is .identifier = true
  | .get _ name => ∃ u dot, w = u ++ [dot, name] ∧ dot.is .dot = true ∧
      name.is .identifier = true ∧ Derives (.rule .call) u
  | _ => True

/-- The tokens `w` are those of the expression `e` by the rule `r`, and its nodes have the
numbers from `i` on up to `k`. -/
structure Phrase (r : Nonterminal) (i : NodeId) (w : List Token) (e : Expr) (k : NodeId) :
    Prop where
  derives : Derives (.rule r) w
  target : Target w e
  numbered : e.Numbered i k

/-- An expression stands for itself on a looser level. -/
theorem Phrase.relax {r r' : Nonterminal} (h : Phrase r i w e k)
    (hr : Derives (.rule r) w → Derives (.rule r') w) : Phrase r' i w e k :=
  { h with derives := hr h.derives }

/-- A parser gives expressions, and by the rule `r` if it reports nothing. -/
abbrev GivesExpr (K : Token → Prop) (r : Nonterminal) (p : Parser Expr) : Prop :=
  ∀ i, Gives K i (fun _ e => Spread K i [.expr e]) (Phrase r i) p

theorem GivesExpr.relax {r r' : Nonterminal} {p : Parser Expr} (h : GivesExpr K r p)
    (hr : ∀ w, Derives (.rule r) w → Derives (.rule r') w) : GivesExpr K r' p :=
  fun i => (h i).mono (fun _ _ _ h => h) fun w _ _ h => h.relax (hr w)

/-! ## Operands -/

theorem derives_primary {e : Ebnf} (h : Derives e w)
    (he : e ∈ [Ebnf.number, .string, .symbol .kwTrue, .symbol .kwFalse, .symbol .kwNil,
      .symbol .kwThis, .symbol .identifier, .seq [.symbol .leftParen, .rule .expression,
      .symbol .rightParen], .seq [.symbol .kwSuper, .symbol .dot, .symbol .identifier]]) :
    Derives (.rule .primary) w :=
  .rule (.choice he h)

/-- An expression that is a single token. -/
theorem phrase_leaf {t : Token} (h : leaf? t i = some (e, k)) :
    Phrase .primary i [t] e k ∧ (K t → Spread K i [.expr e] k) := by
  have hnil : Spread K i [] i := .nil (Nat.le_refl i)
  unfold leaf? at h
  split at h <;> simp only [Option.some.injEq, Prod.mk.injEq, reduceCtorEq] at h
  all_goals obtain ⟨rfl, rfl⟩ := h
  case h_1 x hk =>
    exact ⟨⟨derives_primary (.number hk) (by simp), trivial, .literal⟩, fun _ => hnil.node rfl trivial⟩
  case h_2 x hk =>
    exact ⟨⟨derives_primary (.string hk) (by simp), trivial, .literal⟩, fun _ => hnil.node rfl trivial⟩
  case h_6 hk =>
    have hthis : t.is .kwThis = true := Token.is_of_kind hk
    exact ⟨⟨derives_primary (.symbol hthis) (by simp), trivial, .thisRef⟩,
      fun hK => hnil.numbered rfl ⟨hK, hthis⟩⟩
  case h_7 hk =>
    have hname : t.is .identifier = true := Token.is_of_kind hk
    exact ⟨⟨derives_primary (.symbol hname) (by simp), ⟨rfl, hname⟩, .var⟩,
      fun hK => hnil.numbered rfl ⟨hK, hname⟩⟩
  all_goals
    rename_i hk
    exact ⟨⟨derives_primary (.symbol (Token.is_of_kind hk)) (by simp), trivial, .literal⟩,
      fun _ => hnil.node rfl trivial⟩

section Rules

variable {expr : Parser Expr}

/-- A primary expression is one token, or starts with `super` or a parenthesis. -/
theorem gives_primary (h : GivesExpr K .expression expr) : GivesExpr K .primary (primary expr) := by
  rintro _ ⟨_ | ⟨t, rest⟩, fresh⟩ hc rfl
  · exact (gives_reject : Gives K fresh _ _ (reject (.expected "expression"))) _ hc rfl
  · have ht := hc t List.mem_cons_self
    cases hl : leaf? t fresh with
    | some r =>
      obtain ⟨e, k⟩ := r
      obtain ⟨hphrase, hspread⟩ := phrase_leaf hl
      rw [primary_leaf hl]
      refine ⟨[t], rfl, (hspread ht).le, List.forall_mem_nil _, fun h => (by cases h), ?_, ?_⟩
      · rintro _ ⟨⟩
        exact hspread ht
      · rintro - _ ⟨⟩
        exact hphrase
    | none =>
      cases hs : t.is .kwSuper with
      | true =>
        refine Gives.behind ?_ hc (primary_super hs)
        refine gives_expect_bind fun dot _ hdot => gives_expect_bind fun method _ hmethod =>
          gives_freshId_bind (gives_pure ?_ ⟨?_, trivial, .superRef⟩)
        · exact (Spread.nil (Nat.le_refl fresh)).numbered rfl ⟨ht, hs⟩
        · exact derives_primary
            (.symbol_cons hs (.symbol_cons hdot (.symbol_cons hmethod .nil))) (by simp)
      | false =>
        cases hp : t.is .leftParen with
        | true =>
          refine Gives.behind ?_ hc (primary_paren hp)
          refine (h fresh).bind fun u inner k hinner => gives_expect_bind fun close _ hclose =>
            gives_pure (hinner.node rfl trivial) fun hphrase =>
          ⟨?_, trivial, .grouping hphrase.numbered⟩
          exact derives_primary
            (.symbol_cons hp (.cons hphrase.derives (.symbol_cons hclose .nil))) (by simp)
        | false =>
          rw [primary_reject (by simp [hl, hs, hp])]
          exact gives_reject _ hc rfl

/-- The parts of what stands behind an operand. -/
def Suffix.parts : Suffix → List Part
  | .arguments _ args => args.map .expr
  | .property _ => []

/-- What stands behind an operand of a call, in the grammar. -/
def suffixEbnf : Ebnf :=
  .choice [.seq [.symbol .leftParen, .opt (.rule .arguments), .symbol .rightParen],
    .seq [.symbol .dot, .symbol .identifier]]

/-- The tokens of what stands behind an operand: it makes calls from calls. -/
structure SuffixTokens (i : NodeId) (w : List Token) (s : Suffix) (k : NodeId) : Prop where
  derives : Derives suffixEbnf w
  target : ∀ u e, Derives (.rule .call) u → Target (u ++ w) (s.apply e)
  numbered : ∀ n e, Expr.Numbered n e i → (s.apply e).Numbered n k

theorem MaybeListed.exprs_numbered {es : List Expr}
    (h : MaybeListed (Phrase .expression) maxArity i w es k) :
    Exprs.Numbered i es k := by
  cases h with
  | none => exact .nil
  | some h =>
    generalize maxArity = limit at h
    induction h with
    | one hu => exact .cons hu.numbered .nil
    | cons hu _ _ ih => exact .cons hu.numbered ih

theorem MaybeListed.spread {limit : Nat} {es : List Expr}
    (h : MaybeListed (fun i _ e => Spread K i [.expr e]) limit i w es k) :
    Spread K i (es.map .expr) k := by
  cases h with
  | none => exact .nil (Nat.le_refl i)
  | some h =>
    induction h with
    | one he => exact he
    | cons he _ _ ih => exact he.append ih

theorem gives_suffix (h : GivesExpr K .expression expr) (i : NodeId) :
    Gives K i (Optional (fun i _ s => Spread K i s.parts) i) (Optional SuffixTokens i)
      (suffix expr) := by
  have hproperty : ∀ dot : Token, dot.is .dot = true →
      Gives K i (fun _ s => Spread K i s.parts) (fun v s => SuffixTokens i (dot :: v) s)
        (Suffix.property <$> expect .identifier "property name after '.'") := by
    refine fun dot hdot => gives_expect_bind fun name _ hname => gives_pure (.nil (Nat.le_refl i)) ?_
    exact
      { derives := .choice (by simp) (.symbol_cons hdot (.symbol_cons hname .nil))
        target := fun u e hu => ⟨u, dot, rfl, hdot, hname, hu⟩
        numbered := fun n e he => .get he }
  have harguments : ∀ paren : Token, paren.is .leftParen = true →
      Gives K i (fun _ s => Spread K i s.parts) (fun v s => SuffixTokens i (paren :: v) s)
        (arguments expr) := by
    refine fun paren hparen => (gives_commaList h i).bind fun w args j hargs =>
      gives_expect_bind fun close _ hclose => gives_pure (hargs.elim fun _ h => h.spread)
        fun hargs => ?_
    have hd : Derives (.opt (.rule .arguments)) w :=
      hargs.derives_opt (fun _ _ _ _ h => h.derives) rfl
    exact
      { derives := .choice (by simp) (.symbol_cons hparen (.cons hd (.symbol_cons hclose .nil)))
        target := fun u e hu => trivial
        numbered := fun n e he => .call he hargs.exprs_numbered }
  refine gives_acceptIf_bind (gives_acceptIf_bind gives_none fun dot _ hdot => ?_)
    fun paren _ hparen => ?_
  · exact (hproperty dot hdot).map (fun _ _ _ h => h) fun _ _ _ h => h
  · exact (harguments paren hparen).map (fun _ _ _ h => h) fun _ _ _ h => h

theorem derives_call_append {u : List Token} (hu : Derives (.rule .call) u)
    (hw : Derives (.many suffixEbnf) w) : Derives (.rule .call) (u ++ w) := by
  obtain ⟨p, v, rfl, hp, hv⟩ := Derives.seq_cons_iff.1 (Derives.rule_iff.1 hu)
  rw [List.append_assoc]
  exact .rule (.cons hp (.last ((Derives.seq_one_iff.1 hv).many_append hw)))

/-- Calls and properties one behind the other make calls from calls. -/
theorem Phrase.suffixes {u : List Token} {ss : List Suffix} {j : NodeId} (he : Phrase .call i u e j)
    (hs : Concat SuffixTokens j w ss k) : Phrase .call i (u ++ w) (ss.foldl Suffix.apply e) k := by
  induction hs generalizing u e with
  | nil => simpa using he
  | cons hs _ ih =>
    rw [← List.append_assoc]
    exact ih ⟨derives_call_append he.derives (.many_one hs.derives), hs.target _ _ he.derives,
      hs.numbered _ _ he.numbered⟩

/-- Calls and properties one behind the other. -/
theorem spread_suffixes {ss : List Suffix} (he : Spread K i [.expr e] j)
    (hs : Concat (fun i _ s => Spread K i s.parts) j w ss k) :
    Spread K i [.expr (ss.foldl Suffix.apply e)] k := by
  induction hs generalizing e with
  | nil => exact he
  | @cons _ _ _ _ _ s _ hs _ ih =>
    refine ih ?_
    cases s with
    | arguments paren args => exact Spread.single (he.append hs) rfl trivial
    | property name => exact Spread.single (he.append hs) rfl trivial

theorem gives_call (h : GivesExpr K .expression expr) : GivesExpr K .call (call expr) := by
  intro i
  have hcall : ∀ u, Derives (.rule .primary) u → Derives (.rule .call) u := fun u h => by
    simpa using Derives.rule (n := .call) (.cons h (.last .manyNil))
  exact (gives_primary h i).bind fun u e j he => (gives_many (fun _ => gives_suffix h) j).map
    (fun w ss k hs => spread_suffixes he hs) fun w ss k hs he => (he.relax (hcall u)).suffixes hs

/-! ## Operators -/

def SignToken (i : NodeId) (w : List Token) (t : Token) (k : NodeId) : Prop :=
  w = [t] ∧ [Symbol.bang, .minus].any t.is = true ∧ k = i

/-- Signs in front of an operand. -/
theorem Phrase.signs {u : List Token} {ts : List Token} {j : NodeId}
    (hts : Concat SignToken i u ts j) (he : Phrase .unary j w e k) :
    Phrase .unary i (u ++ w) (ts.foldr Expr.unary e) k := by
  induction hts with
  | nil => exact he
  | @cons i _ _ _ v t ts ht _ ih =>
    obtain ⟨rfl, ht, rfl⟩ := ht
    have hsign : t.is .bang = true ∨ t.is .minus = true := by simpa using ht
    have htoken : Derives (.choice [.symbol .bang, .symbol .minus]) [t] := by
      rcases hsign with h | h
      · exact .choice (by simp) (.symbol h)
      · exact .choice (by simp) (.symbol h)
    have ih := ih he
    have hd : Derives (.seq [.choice [.symbol .bang, .symbol .minus], .rule .unary])
        ([t] ++ (v ++ w)) := .cons htoken (.last ih.derives)
    exact ⟨.rule (.choice (by simp) hd), trivial, .unary ih.numbered⟩

theorem spread_signs {ts : List Token} (hts : Concat SignToken i w ts j)
    (he : Spread K j [.expr e] k) : Spread K i [.expr (ts.foldr Expr.unary e)] k := by
  induction hts with
  | nil => exact he
  | cons ht _ ih =>
    obtain ⟨-, ht, rfl⟩ := ht
    exact (ih he).node rfl (by simpa [Part.Fits, Expr.Fits] using ht)

theorem gives_unary (h : GivesExpr K .expression expr) : GivesExpr K .unary (unary expr) := by
  intro i
  have hsigns : ∀ i, Gives K i (Concat SignToken i) (Concat SignToken i)
      (many fun _ => acceptAny [.bang, .minus]) :=
    gives_many fun _ i => gives_acceptIf ⟨rfl, rfl⟩ fun t _ ht => ⟨rfl, ht, rfl⟩
  refine (hsigns i).bind fun u ts j hts => (gives_call h j).map
    (fun w e k he => spread_signs hts he) fun w e k he hts => .signs hts ?_
  exact he.relax fun h => .rule (.choice (by simp) h)

/-- What holds of the nodes of a level whatever its operators are. -/
structure Level.Regular (level : Level) : Prop where
  target : ∀ w l op r, Target w (level.node l op r)
  numbered : ∀ {i j k l op r}, Expr.Numbered i l j → r.Numbered j k →
    (level.node l op r).Numbered i k
  spread : ∀ {K i k l op r}, level.operators.any op.is = true → Spread K i [.expr l, .expr r] k →
    Spread K i [.expr (level.node l op r)] k

theorem regular_of_mem_levels (h : level ∈ levels) : level.Regular := by
  simp only [levels, List.mem_cons, List.not_mem_nil, or_false] at h
  rcases h with rfl | rfl | rfl | rfl | rfl | rfl
  all_goals
    refine ⟨fun _ _ _ _ => trivial, fun hl hr => ?_, fun hop h => h.node rfl ?_⟩
    · first | exact .logical hl hr | exact .binary hl hr
    · first
        | trivial
        | simp only [Part.Fits, Expr.Fits, Token.IsBinaryOperator, List.any_cons, List.any_nil]
            at hop ⊢
          grind

/-- The tokens of an operator of a level and its right operand. -/
def OperandTokens (level : Level) (r : Nonterminal) (i : NodeId) (w : List Token)
    (o : Token × Expr) (k : NodeId) : Prop :=
  ∃ v, w = o.1 :: v ∧ level.operators.any o.1.is = true ∧ Phrase r i v o.2 k

theorem gives_rightOperand {operand : Parser Expr} {r : Nonterminal} (h : GivesExpr K r operand)
    (i : NodeId) :
    Gives K i (Optional (fun i _ o k =>
        level.operators.any o.1.is = true ∧ Spread K i [.expr o.2] k) i)
      (Optional (OperandTokens level r) i) (rightOperand level operand) :=
  gives_acceptIf_bind gives_none fun _ _ hop => (h i).map (fun _ _ _ he => ⟨hop, he⟩)
    fun w _ _ he => ⟨w, rfl, hop, he⟩

/-- The rule for a level has its operators between operands. -/
structure Level.Follows (level : Level) (r operand : Nonterminal) (operators : List Symbol) :
    Prop where
  regular : level.Regular
  rule : rules r = .chain operand operators
  operators : ∀ s, s ∈ level.operators ↔ s ∈ operators

theorem Level.Follows.derives_operator {r operand : Nonterminal}
    (h : level.Follows r operand operators) {op : Token} (hop : level.operators.any op.is = true) :
    Derives (.choice (operators.map .symbol)) [op] := by
  obtain ⟨s, hs, hop⟩ := List.any_eq_true.1 hop
  exact .choice (List.mem_map.2 ⟨s, (h.operators s).1 hs, rfl⟩) (.symbol hop)

/-- Operands with operators between them group to the left. -/
theorem Phrase.operands {r operand : Nonterminal} (h : level.Follows r operand operators)
    {u : List Token} {os : List (Token × Expr)} {j : NodeId} (he : Phrase r i u e j)
    (hos : Concat (OperandTokens level operand) j w os k) :
    Phrase r i (u ++ w) (os.foldl (fun l o => level.node l o.1 o.2) e) k := by
  induction hos generalizing u e with
  | nil => simpa using he
  | @cons _ _ _ _ _ o _ ho _ ih =>
    obtain ⟨v, rfl, hop, ho⟩ := ho
    have hd := Derives.rule_iff.1 he.derives
    rw [h.rule] at hd
    obtain ⟨x, y, rfl, hx, hy⟩ := Derives.seq_cons_iff.1 hd
    have hitem : Derives (.seq [.choice (operators.map .symbol), .rule operand]) ([o.1] ++ v) :=
      .cons (h.derives_operator hop) (.last ho.derives)
    have hchain : Derives (.chain operand operators) (x ++ (y ++ ([o.1] ++ v))) :=
      .cons hx (.last ((Derives.seq_one_iff.1 hy).many_append (.many_one hitem)))
    rw [← h.rule, ← List.append_assoc] at hchain
    rw [← List.append_assoc]
    exact ih ⟨.rule hchain, h.regular.target _ _ _ _,
      h.regular.numbered he.numbered ho.numbered⟩

theorem spread_operands (hlevel : level.Regular) {os : List (Token × Expr)}
    (he : Spread K i [.expr e] j)
    (hos : Concat (fun i _ o k => level.operators.any o.1.is = true ∧ Spread K i [.expr o.2] k)
      j w os k) :
    Spread K i [.expr (os.foldl (fun l o => level.node l o.1 o.2) e)] k := by
  induction hos generalizing e with
  | nil => exact he
  | cons ho _ ih => exact ih (hlevel.spread ho.1 (he.append ho.2))

theorem gives_chain {operand : Parser Expr} {r r' : Nonterminal}
    (hlevel : level.Follows r r' operators) (h : GivesExpr K r' operand) :
    GivesExpr K r (chain level operand) := by
  intro i
  have hone : ∀ u, Derives (.rule r') u → Derives (.rule r) u := fun u h => by
    have hchain : Derives (.chain r' operators) (u ++ []) := .cons h (.last .manyNil)
    rw [← hlevel.rule, List.append_nil] at hchain
    exact .rule hchain
  exact (h i).bind fun u e j he => (gives_many (fun _ => gives_rightOperand h) j).map
    (fun w os k hos => spread_operands hlevel.regular he hos) fun w os k hos he =>
      .operands hlevel (he.relax (hone u)) hos

/-- The rules for the levels, loosest first. -/
theorem levels_follow :
    (Level.mk [.kwOr] .logical).Follows .logicOr .logicAnd [.kwOr] ∧
    (Level.mk [.kwAnd] .logical).Follows .logicAnd .equality [.kwAnd] ∧
    (Level.mk [.bangEqual, .equalEqual] .binary).Follows .equality .comparison
      [.bangEqual, .equalEqual] ∧
    (Level.mk [.greater, .greaterEqual, .less, .lessEqual] .binary).Follows .comparison .term
      [.greater, .greaterEqual, .less, .lessEqual] ∧
    (Level.mk [.minus, .plus] .binary).Follows .term .factor [.minus, .plus] ∧
    (Level.mk [.star, .slash] .binary).Follows .factor .unary [.slash, .star] := by
  refine ⟨⟨?_, rfl, ?_⟩, ⟨?_, rfl, ?_⟩, ⟨?_, rfl, ?_⟩, ⟨?_, rfl, ?_⟩, ⟨?_, rfl, ?_⟩, ?_, rfl, ?_⟩
  all_goals
    first
      | exact regular_of_mem_levels (by simp [levels])
      | simp [or_comm]

theorem gives_operations (h : GivesExpr K .expression expr) :
    GivesExpr K .logicOr (operations expr) := by
  obtain ⟨hor, hand, heq, hcmp, hterm, hfactor⟩ := levels_follow
  exact gives_chain hor (gives_chain hand (gives_chain heq (gives_chain hcmp (gives_chain hterm
    (gives_chain hfactor (gives_unary h))))))

/-! ## Conditionals, fallbacks and assignments -/

theorem gives_conditional (h : GivesExpr K .expression expr) :
    GivesExpr K .ternary (conditional expr) := by
  refine fun i => (gives_operations h i).bind fun u c j hc =>
    gives_acceptIf_bind (gives_pure hc fun hc => ?_) fun question _ hq => (h j).bind
      fun v a k ha => gives_expect_bind fun colon _ hcolon => (h k).map
        (fun w b l hb => ((hc.append ha).append hb).node rfl trivial) fun w b l hb ha hc => ?_
  · rw [List.append_nil]
    exact hc.relax fun h => by
      simpa using Derives.rule (n := .ternary) (.cons h (.last .optNone))
  · have hrest : Derives (.opt (.seq [.symbol .question, .rule .expression, .symbol .colon,
        .rule .expression])) (question :: (v ++ colon :: w)) :=
      .optSome (.symbol_cons hq (.cons ha.derives (.symbol_cons hcolon (.last hb.derives))))
    exact ⟨.rule (.cons hc.derives (.last hrest)), trivial,
      .conditional hc.numbered ha.numbered hb.numbered⟩

theorem gives_coalescing (h : GivesExpr K .expression expr) :
    GivesExpr K .nullCoalesce (coalescing expr) := by
  refine fun i => (gives_conditional h i).bind fun u l j hl =>
    gives_acceptIf_bind (gives_pure hl fun hl => ?_) fun _ _ hop => (h j).map
      (fun w b k hb => (hl.append hb).coalesce) fun w b k hb hl => ⟨?_, trivial, ?_⟩
  · rw [List.append_nil]
    exact hl.relax fun h => by
      simpa using Derives.rule (n := .nullCoalesce) (.cons h (.last .optNone))
  · exact .rule (.cons hl.derives (.last (.optSome (.symbol_cons hop (.last hb.derives)))))
  · exact .coalesce hl.numbered hb.numbered

/-- What may be stored in stands in front of an equals sign in the grammar. A target that is a name
gets a new number, and its own is dropped. A target that denotes no place stays, with a report, and
the value is dropped. -/
theorem gives_store {u v : List Token} {target value : Expr} {equals : Token} {j : NodeId}
    (hK : K equals) (hequals : equals.is .equal = true)
    (hboth : Spread K i [.expr target, .expr value] k) :
    Gives K k (fun _ e => Spread K i [.expr e]) (fun w e l => Phrase .expression j v value k →
      Phrase .nullCoalesce i u target j → Phrase .assignment i (u ++ equals :: (v ++ w)) e l)
      (store target equals value) := by
  have hassign : ∀ {v w t}, Phrase .expression j v value k → t.is .identifier = true →
      Derives (.opt (.seq [.rule .call, .symbol .dot])) w →
        Derives (.rule .assignment) (w ++ t :: equals :: v) := by
    intro v w t hv ht hw
    have hvalue : Derives (.rule .assignment) v := Derives.rule_iff.1 hv.derives
    exact .rule (.choice (by simp) (.cons hw (.symbol_cons ht (.symbol_cons hequals
      (.last hvalue)))))
  unfold store
  split
  case h_1 id name =>
    refine gives_freshId_bind (gives_pure ?_ fun hv ht => ?_)
    · have hname := (hboth.formed _ List.mem_cons_self).fits
      exact (hboth.sublist (List.sublist_cons_self _ _)).numbered rfl hname
    · obtain ⟨rfl, hname⟩ := ht.target
      rw [List.append_nil]
      refine ⟨hassign hv hname .optNone, trivial, ?_⟩
      cases ht.numbered with
      | var => exact .assign hv.numbered
  case h_2 object name =>
    refine gives_pure (Spread.node (hboth.inside (by simp [Part.children])) rfl trivial)
      fun hv ht => ?_
    obtain ⟨u, dot, rfl, hdot, hname, hu⟩ := ht.target
    refine ⟨?_, trivial, ?_⟩
    · simpa using hassign hv hname (.optSome (.cons hu (.last (.symbol hdot))))
    · cases ht.numbered with
      | get ho => exact .set ho hv.numbered
  case h_3 => exact gives_report_bind (.inl hK) (gives_pure (hboth.sublist (by simp)) trivial)

theorem gives_assignment (h : GivesExpr K .expression expr) :
    GivesExpr K .expression (assignment expr) := by
  refine GivesExpr.relax (r := .assignment) (fun i => ?_) fun w h => .rule h
  refine (gives_coalescing h i).bind fun u target j ht => gives_acceptIf_bind
    (gives_pure ht fun ht => ?_) fun equals hK hequals => (h j).bind fun v value k hv =>
      gives_store hK hequals (ht.append hv)
  rw [List.append_nil]
  exact ht.relax fun h => .rule (.choice (by simp) h)

end Rules

theorem gives_expression : GivesExpr K .expression expression := by
  have hrounds : ∀ n, GivesExpr K .expression (assignment^[n] (reject (.expected "expression"))) := by
    intro n
    induction n with
    | zero => exact fun _ => gives_reject
    | succ n ih =>
      rw [Function.iterate_succ_apply']
      exact gives_assignment ih
  intro i c hc hi
  rw [← expression_rounds (reject (.expected "expression")) (Nat.lt_succ_self _)]
  exact hrounds _ i c hc hi

end Lox.Parser
