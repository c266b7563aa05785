import Lox.Proofs.Parser.Expressions
import Lox.Proofs.Scope.Rules

/-!
# What is read as a program

The tokens that are read as a statement, a declaration or a program derive from the rules of the
grammar, and the nodes of the trees are numbered in the order in which they are read.

Whatever is reported, the reports are about the grammar and at tokens that have been read, and the
statements that are given are made of such tokens. The names that are declared in a scope stand among
the tokens in the order in which the scope has them: each statement takes its names from the tokens
that it was read from.
-/

namespace Lox

variable {α : Type}

/-! ## Declarations in the order of the text -/

/-- The declarations `ds` stand in this order among the tokens `w`, and so do the declarations of
each of the scopes. -/
structure Ordered (w ds : List Token) (opens : Region → Prop) : Prop where
  declared : ds.Sublist w
  inside : ∀ r, opens r → r.declarations.Sublist w

theorem Ordered.mono {u w ds : List Token} {opens : Region → Prop} (h : Ordered u ds opens)
    (hw : u.Sublist w) : Ordered w ds opens :=
  ⟨h.declared.trans hw, fun r hr => (h.inside r hr).trans hw⟩

/-- A statement, or one inside it, opens a scope. -/
def Stmt.Opens (s : Stmt) (r : Region) : Prop := ∃ path, ∃ p ∈ s.parts path, r ∈ p.2.regions

def Stmts.Opens (ss : List Stmt) (r : Region) : Prop :=
  ∃ path, ∃ p ∈ Stmts.parts path ss, r ∈ p.2.regions

/-- A statement declares its names in the order of the tokens. -/
def Stmt.Ordered (w : List Token) (s : Stmt) : Prop := Lox.Ordered w s.declared?.toList s.Opens

def Stmts.Ordered (w : List Token) (ss : List Stmt) : Prop :=
  Lox.Ordered w (ss.filterMap Stmt.declared?) (Stmts.Opens ss)

def FunctionDecl.Ordered (w : List Token) (f : FunctionDecl) : Prop :=
  Lox.Ordered w (Region.call f).declarations (Stmts.Opens f.body)

section

variable {u v w : List Token} {s : Stmt} {ss : List Stmt} {f : FunctionDecl} {r : Region}

theorem Stmts.ordered_nil : Stmts.Ordered [] [] :=
  ⟨.slnil, fun _ ⟨_, _, hp, _⟩ => by cases hp⟩

theorem Stmts.ordered_cons (hs : s.Ordered u) (hss : Stmts.Ordered v ss) :
    Stmts.Ordered (u ++ v) (s :: ss) := by
  refine ⟨?_, ?_⟩
  · have hcons : (s :: ss).filterMap Stmt.declared? =
        s.declared?.toList ++ ss.filterMap Stmt.declared? := by
      cases hd : s.declared? <;> simp [hd]
    rw [hcons]
    exact hs.declared.append hss.declared
  · rintro r ⟨path, p, hp, hr⟩
    rcases List.mem_append.1 hp with hp | hp
    · exact (hs.inside r ⟨path, p, hp, hr⟩).trans (List.sublist_append_left u v)
    · exact (hss.inside r ⟨path, p, hp, hr⟩).trans (List.sublist_append_right u v)

/-- A statement that opens no scope, not even inside. -/
theorem Stmt.ordered_of_parts (hd : s.declared?.toList.Sublist w)
    (hparts : ∀ path, s.parts path = [(path, s)]) (hregions : s.regions = []) : s.Ordered w := by
  refine ⟨hd, ?_⟩
  rintro r ⟨path, p, hp, hr⟩
  rw [hparts, List.mem_singleton] at hp
  rw [hp, hregions] at hr
  cases hr

theorem Stmt.ordered_expression (e : Expr) : (Stmt.expression e).Ordered w :=
  ordered_of_parts (List.nil_sublist w) (fun _ => rfl) rfl

theorem Stmt.ordered_block (h : Stmts.Ordered w ss) : (Stmt.block ss).Ordered w := by
  refine ⟨List.nil_sublist w, ?_⟩
  rintro r ⟨path, p, hp, hr⟩
  rcases List.mem_cons.1 hp with rfl | hp
  · obtain rfl := List.mem_singleton.1 hr
    exact h.declared
  · exact h.inside r ⟨_, p, hp, hr⟩

theorem Stmt.ordered_ifThen {c : Expr} (h : s.Ordered w) : (Stmt.ifThen c s).Ordered w := by
  refine ⟨List.nil_sublist w, ?_⟩
  rintro r ⟨path, p, hp, hr⟩
  rcases List.mem_cons.1 hp with rfl | hp
  · cases hr
  · exact h.inside r ⟨_, p, hp, hr⟩

theorem Stmt.ordered_ifElse {c : Expr} {s' : Stmt} (h : s.Ordered w) (h' : s'.Ordered w) :
    (Stmt.ifElse c s s').Ordered w := by
  refine ⟨List.nil_sublist w, ?_⟩
  rintro r ⟨path, p, hp, hr⟩
  rcases List.mem_cons.1 hp with rfl | hp
  · cases hr
  · rcases List.mem_append.1 hp with hp | hp
    · exact h.inside r ⟨_, p, hp, hr⟩
    · exact h'.inside r ⟨_, p, hp, hr⟩

theorem Stmt.ordered_whileLoop {c : Expr} (h : s.Ordered w) : (Stmt.whileLoop c s).Ordered w := by
  refine ⟨List.nil_sublist w, ?_⟩
  rintro r ⟨path, p, hp, hr⟩
  rcases List.mem_cons.1 hp with rfl | hp
  · cases hr
  · exact h.inside r ⟨_, p, hp, hr⟩

theorem FunctionDecl.ordered {name : Token} {params : List Token} (hparams : params.Sublist u)
    (hbody : Stmts.Ordered v ss) : (FunctionDecl.mk name params ss).Ordered (u ++ v) :=
  ⟨hparams.append hbody.declared, fun r hr =>
    (hbody.inside r hr).trans (List.sublist_append_right u v)⟩

theorem Stmt.ordered_funDecl (hname : f.name ∈ w) (h : f.Ordered w) : (Stmt.funDecl f).Ordered w := by
  obtain ⟨name, params, body⟩ := f
  refine ⟨List.singleton_sublist.2 hname, ?_⟩
  rintro r ⟨path, p, hp, hr⟩
  rcases List.mem_cons.1 hp with rfl | hp
  · obtain rfl := List.mem_singleton.1 hr
    exact h.declared
  · exact h.inside r ⟨_, p, hp, hr⟩

theorem FunctionDecls.inside_of_ordered {place : FunctionDecl → Path} {fs : List FunctionDecl}
    (h : ∀ f ∈ fs, f.Ordered w) : ∀ p ∈ FunctionDecls.parts place fs, ∀ r ∈ p.2.regions,
      r.declarations.Sublist w := by
  refine forall_parts.2 fun f hf p hp r hr => ?_
  obtain ⟨name, params, body⟩ := f
  exact (h _ hf).inside r ⟨_, p, hp, hr⟩

theorem Stmt.ordered_classDecl {decl : ClassDecl} (hname : decl.name ∈ w)
    (h : ∀ f ∈ decl.statics ++ decl.methods, f.Ordered w) : (Stmt.classDecl decl).Ordered w := by
  obtain ⟨name, superclass, methods, statics⟩ := decl
  obtain ⟨hstatics, hmethods⟩ := List.forall_mem_append.1 h
  refine ⟨List.singleton_sublist.2 hname, ?_⟩
  rintro r ⟨path, p, hp, hr⟩
  rcases List.mem_cons.1 hp with rfl | hp
  · obtain ⟨f, hf, rfl⟩ := List.mem_map.1 hr
    exact (h f hf).declared
  · rcases List.mem_append.1 hp with hp | hp
    · exact FunctionDecls.inside_of_ordered hstatics p hp r hr
    · exact FunctionDecls.inside_of_ordered hmethods p hp r hr

end

namespace Parser

open Parts

variable {K : Token → Prop} {i j k l : NodeId} {s : Symbol} {e : Ebnf} {w : List Token} {body : Stmt}

/-- The tokens `w` derive from `e`, and the nodes of `a` have the numbers from `i` on up to `k`. -/
structure Clause (e : Ebnf) (numbered : NodeId → α → NodeId → Prop) (i : NodeId) (w : List Token)
    (a : α) (k : NodeId) : Prop where
  derives : Derives e w
  numbered : numbered i a k

/-! ## Expressions in statements -/

def optionalExpr (o : Option Expr) : List Part := o.toList.map .expr

def optionalStmt (o : Option Stmt) : List Part := o.toList.map .stmt

/-- The members of a class are sorted into those that are not static and those that are. -/
theorem perm_members (members : List (Bool × FunctionDecl)) :
    (members.flatMap fun m => [Part.function m.2]).Perm
      (((members.filter fun m => !m.1).map Prod.snd).map .function ++
        ((members.filter fun m => m.1).map Prod.snd).map .function) := by
  have hperm := (List.filter_append_perm (fun m : Bool × FunctionDecl => !m.1) members).map
    fun m => Part.function m.2
  rw [List.map_append] at hperm
  simpa [List.map_eq_flatMap, List.flatMap_assoc] using hperm.symm

/-- A parser gives expressions that may be missing. -/
abbrev GivesOption (K : Token → Prop) (e : Ebnf) (p : Parser (Option Expr)) : Prop :=
  ∀ i, Gives K i (fun _ o => Spread K i (optionalExpr o)) (Clause e Expr.OptionNumbered i) p

theorem gives_missing (h : Derives e []) : GivesOption K e (pure none) :=
  fun i => gives_pure (.nil (Nat.le_refl i)) ⟨h, .none⟩

theorem gives_expressionUnless : GivesOption K (.opt (.rule .expression)) (expressionUnless s) := by
  refine fun i => gives_look_bind (fun _ => ⟨_, rfl⟩) fun b => ?_
  cases b with
  | true => exact gives_missing .optNone i
  | false =>
    exact (gives_expression i).map (fun _ _ _ h => h)
      fun _ _ _ h => ⟨.optSome h.derives, .some h.numbered⟩

/-- Something with a semicolon behind it. -/
theorem gives_terminated {p : Parser α} {what : String} {P : α → NodeId → Prop}
    {N : NodeId → α → NodeId → Prop} (h : Gives K i (fun _ => P) (Clause e N i) p) :
    Gives K i (fun _ => P) (Clause (.seq [e, .symbol .semicolon]) N i) (terminated p what) :=
  h.bind fun _ _ _ ha => gives_expect_bind fun _ _ hs => gives_pure ha fun ha =>
    ⟨.cons ha.derives (.last (.symbol hs)), ha.numbered⟩

theorem gives_terminated_expression {what : String} :
    Gives K i (fun _ e => Spread K i [.expr e])
      (Clause (.seq [.rule .expression, .symbol .semicolon]) Expr.Numbered i)
      (terminated expression what) :=
  gives_terminated ((gives_expression i).mono (fun _ _ _ h => h)
    fun _ _ _ h => ⟨h.derives, h.numbered⟩)

/-- A statement as it is read. -/
structure IsItem (K : Token → Prop) (i : NodeId) (w : List Token) (s : Stmt) (k : NodeId) : Prop where
  spread : Spread K i [.stmt s] k
  ordered : s.Ordered w

/-- A statement as it is read where nothing may be declared. -/
structure IsBranch (K : Token → Prop) (i : NodeId) (w : List Token) (s : Stmt) (k : NodeId) : Prop
    extends IsItem K i w s k where
  declared : s.declared? = none

theorem IsItem.cons {s : Stmt} (h : IsItem K i w s k) (t : Token) : IsItem K i (t :: w) s k :=
  ⟨h.spread, h.ordered.mono (List.sublist_cons_self t w)⟩

theorem IsBranch.cons {s : Stmt} (h : IsBranch K i w s k) (t : Token) : IsBranch K i (t :: w) s k :=
  ⟨h.toIsItem.cons t, h.declared⟩

/-- A parser gives statements where nothing may be declared. -/
abbrev GivesBranch (K : Token → Prop) (e : Ebnf) (p : Parser Stmt) : Prop :=
  ∀ i, Gives K i (IsBranch K i) (Clause e Stmt.Numbered i) p

abbrev GivesItem (K : Token → Prop) (e : Ebnf) (p : Parser Stmt) : Prop :=
  ∀ i, Gives K i (IsItem K i) (Clause e Stmt.Numbered i) p

theorem gives_expressionStatement : GivesBranch K (.rule .exprStmt) expressionStatement := fun _ =>
  gives_terminated_expression.map
    (fun _ _ _ h => ⟨⟨h.node rfl trivial, Stmt.ordered_expression _⟩, rfl⟩)
    fun _ _ _ h => ⟨.rule h.derives, .expression h.numbered⟩

/-! ## Declarations -/

theorem gives_initializer :
    GivesOption K (.opt (.seq [.symbol .equal, .rule .expression])) initializer := fun i =>
  gives_acceptIf_bind (gives_missing .optNone i) fun _ _ hequals => (gives_expression i).map
    (fun _ _ _ h => h) fun _ _ _ h =>
      ⟨.optSome (.symbol_cons hequals (.last h.derives)), .some h.numbered⟩

theorem gives_varDecl :
    GivesItem K (.seq [.symbol .identifier, .opt (.seq [.symbol .equal, .rule .expression]),
      .symbol .semicolon]) varDecl := fun i =>
  gives_expect_bind fun name hK hname => (gives_terminated (gives_initializer i)).map
    (fun w _ _ h => ⟨h.single rfl ⟨hK, hname⟩,
      Stmt.ordered_of_parts (List.sublist_append_left [name] w) (fun _ => rfl) rfl⟩)
    fun _ _ _ h => ⟨.symbol_cons hname h.derives, .varDecl h.numbered⟩

/-- What is read as a declaration: with a fault it is left out. -/
def IsDecl (K : Token → Prop) (i : NodeId) (w : List Token) (o : Option Stmt) (k : NodeId) : Prop :=
  i ≤ k ∧ ∀ s ∈ o, IsItem K i w s k

/-- What is read as a declaration without a fault. -/
def DeclClause (i : NodeId) (w : List Token) (o : Option Stmt) (k : NodeId) : Prop :=
  ∃ s, o = some s ∧ Clause (.rule .declaration) Stmt.Numbered i w s k

/-- A parser gives declarations, or nothing in the place of one with a fault. -/
abbrev GivesDecl (K : Token → Prop) (decl : Parser (Option Stmt)) : Prop :=
  ∀ i, Gives K i (IsDecl K i) (DeclClause i) decl

/-- Statements as they are read, without those that have a fault. -/
structure IsBody (K : Token → Prop) (i : NodeId) (w : List Token) (ss : List Stmt) (k : NodeId) :
    Prop where
  spread : Spread K i (ss.map .stmt) k
  ordered : Stmts.Ordered w ss

theorem Concat.isBody {os : List (Option Stmt)} (h : Concat (IsDecl K) i w os k) :
    IsBody K i w os.reduceOption k := by
  induction h with
  | nil => exact ⟨.nil (Nat.le_refl _), Stmts.ordered_nil⟩
  | @cons _ _ _ u v o _ ho _ ih =>
    cases o with
    | none => exact ⟨(Spread.nil ho.1).append ih.spread,
        ih.ordered.mono (List.sublist_append_right u v)⟩
    | some s =>
      have hs := ho.2 s rfl
      exact ⟨hs.spread.append ih.spread, Stmts.ordered_cons hs.ordered ih.ordered⟩

/-- Declarations one after the other. -/
theorem Concat.declarations {os : List (Option Stmt)} (h : Concat DeclClause i w os k) :
    Clause (.many (.rule .declaration)) Stmts.Numbered i w os.reduceOption k := by
  induction h with
  | nil => exact ⟨.manyNil, .nil⟩
  | cons hu _ ih =>
    obtain ⟨s, rfl, hu⟩ := hu
    exact ⟨.manyCons hu.derives ih.derives, .cons hu.numbered ih.numbered⟩

/-- The names in a list. -/
theorem MaybeListed.names {limit : Nat} {ts : List Token}
    (h : MaybeListed (fun i w t k => w = [t] ∧ k = i ∧ K t ∧ t.is s = true) limit i w ts k) :
    k = i ∧ ts.Sublist w ∧ ∀ t ∈ ts, K t ∧ t.is s = true := by
  cases h with
  | none => exact ⟨rfl, .slnil, List.forall_mem_nil _⟩
  | some h =>
    induction h with
    | one ht =>
      obtain ⟨rfl, rfl, ht⟩ := ht
      exact ⟨rfl, .refl _, List.forall_mem_singleton.2 ht⟩
    | cons ht _ _ ih =>
      obtain ⟨rfl, rfl, ht⟩ := ht
      exact ⟨ih.1, (ih.2.1.cons _).cons_cons _, List.forall_mem_cons.2 ⟨ht, ih.2.2⟩⟩

/-- A function as it is read. -/
structure IsFunction (K : Token → Prop) (i : NodeId) (w : List Token) (f : FunctionDecl)
    (k : NodeId) : Prop where
  spread : Spread K i [.function f] k
  name : f.name ∈ w
  ordered : f.Ordered w

theorem IsFunction.cons {f : FunctionDecl} (h : IsFunction K i w f k) (t : Token) :
    IsFunction K i (t :: w) f k :=
  ⟨h.spread, List.mem_cons_of_mem t h.name, h.ordered.mono (List.sublist_cons_self t w)⟩

section Rules

variable {stmt : Parser Stmt} {decl : Parser (Option Stmt)}

theorem gives_block (h : GivesDecl K decl) (i : NodeId) :
    Gives K i (IsBody K i)
      (Clause (.seq [.many (.rule .declaration), .symbol .rightBrace]) Stmts.Numbered i)
      (block decl) := by
  have hitem : ∀ (index : Nat) i, Gives K i (Optional (IsDecl K) i) (Optional DeclClause i)
      (do if (← check .rightBrace) || (← atEnd) then pure none else some <$> decl) := by
    refine fun _ i => gives_look_bind (fun _ => ⟨_, rfl⟩) fun b =>
      gives_look_bind (fun _ => ⟨_, rfl⟩) fun b' => ?_
    cases b || b' with
    | true => exact gives_none
    | false => exact gives_some (h i)
  refine (gives_many hitem i).bind fun u os j hos => gives_expect_bind fun brace _ hbrace =>
    gives_pure ?_ fun hos => ?_
  · exact ⟨hos.isBody.spread, hos.isBody.ordered.mono (List.sublist_append_left u _)⟩
  · exact ⟨.cons hos.declarations.derives (.last (.symbol hbrace)), hos.declarations.numbered⟩

theorem gives_function {kind : String} (h : GivesDecl K decl) (i : NodeId) :
    Gives K i (IsFunction K i) (Clause (.rule .function) FunctionDecl.Numbered i)
      (function kind decl) := by
  have hparam : ∀ i, Gives K i (fun w t k => w = [t] ∧ k = i ∧ K t ∧ t.is .identifier = true)
      (fun w t k => w = [t] ∧ k = i ∧ K t ∧ t.is .identifier = true)
      (expect .identifier "parameter name") := fun i =>
    gives_acceptIf_bind gives_reject fun t hK ht => gives_pure ⟨rfl, rfl, hK, ht⟩ ⟨rfl, rfl, hK, ht⟩
  refine gives_expect_bind fun name hK hname => gives_expect_bind fun paren _ hparen =>
    (gives_commaList hparam i).bind fun u ps j hps => gives_expect_bind fun close _ hclose =>
      gives_expect_bind fun brace _ hbrace => (gives_block h j).map (fun v body k hbody => ?_)
        fun v body k hbody hps => ⟨?_, .body ?_⟩
  · obtain ⟨limit, hps⟩ := hps
    obtain ⟨rfl, hsub, hnames⟩ := hps.names
    refine ⟨hbody.spread.single rfl (List.forall_mem_cons.2 ⟨⟨hK, hname⟩, hnames⟩),
      List.mem_cons_self, ?_⟩
    exact (FunctionDecl.ordered hsub hbody.ordered).mono (by grind)
  · have hparams : Derives (.opt (.rule .parameters)) u :=
      hps.derives_opt (fun _ _ _ _ h => h.1 ▸ .symbol h.2.2.2) rfl
    have hblock : Derives (.rule .block) (brace :: v) := .rule (.symbol_cons hbrace hbody.derives)
    exact .rule (.symbol_cons hname (.symbol_cons hparen (.cons hparams
      (.symbol_cons hclose (.last hblock)))))
  · exact hps.names.1 ▸ hbody.numbered

theorem gives_superclass (i : NodeId) :
    Gives K i (fun _ o k => Spread K i (optionalExpr o) k ∧ ∀ e ∈ o, ∃ id name, e = .var id name)
      (Clause (.opt (.seq [.symbol .less, .symbol .identifier])) Expr.OptionNumbered i)
      superclass := by
  refine gives_acceptIf_bind (gives_pure ⟨.nil (Nat.le_refl i), fun _ h => (by cases h)⟩
    ⟨.optNone, .none⟩) fun less _ hless => gives_expect_bind fun name hK hname =>
      gives_freshId_bind (gives_pure ⟨?_, ?_⟩ ⟨?_, .some .var⟩)
  · exact (Spread.nil (Nat.le_refl i)).numbered rfl ⟨hK, hname⟩
  · rintro _ ⟨⟩
    exact ⟨i, name, rfl⟩
  · exact .optSome (.symbol_cons hless (.last (.symbol hname)))

/-- What is read as a member of a class. -/
abbrev MemberClause :=
  Clause (α := Bool × FunctionDecl) (.seq [.opt (.symbol .kwStatic), .rule .function])
    fun i m k => m.2.Numbered i k

theorem gives_member (h : GivesDecl K decl) (i : NodeId) :
    Gives K i (Optional (fun i w m => IsFunction K i w m.2) i) (Optional MemberClause i)
      (member decl) := by
  refine gives_look_bind (fun _ => ⟨_, rfl⟩) fun b => gives_look_bind (fun _ => ⟨_, rfl⟩) fun b' => ?_
  cases b || b' with
  | true => exact gives_none
  | false =>
    refine gives_acceptIf_bind ((gives_function h i).map (fun _ _ _ hf => hf) fun _ _ _ hf => ?_)
      fun keyword _ hkeyword => (gives_function h i).map (fun _ _ _ hf => hf.cons keyword)
        fun _ _ _ hf => ?_
    · exact ⟨.cons .optNone (.last hf.derives), hf.numbered⟩
    · exact ⟨.cons (.optSome (.symbol hkeyword)) (.last hf.derives), hf.numbered⟩

/-- Members one after the other. -/
theorem Concat.members {ms : List (Bool × FunctionDecl)} (h : Concat MemberClause i w ms k) :
    Members.Numbered i ms k := by
  induction h with
  | nil => exact .nil
  | cons hu _ ih => exact .cons hu.numbered ih

theorem Concat.functions {ms : List (Bool × FunctionDecl)}
    (h : Concat (fun i w m => IsFunction K i w m.2) i w ms k) :
    Spread K i (ms.flatMap fun m => [.function m.2]) k ∧ ∀ m ∈ ms, m.2.Ordered w := by
  induction h with
  | nil => exact ⟨.nil (Nat.le_refl _), List.forall_mem_nil _⟩
  | @cons _ _ _ u v _ _ hm _ ih =>
    refine ⟨hm.spread.append ih.1, List.forall_mem_cons.2 ⟨?_, fun m hm => ?_⟩⟩
    · exact hm.ordered.mono (List.sublist_append_left u v)
    · exact (ih.2 m hm).mono (List.sublist_append_right u v)

/-- The members stand in one list, and the tree has the static ones apart. -/
theorem gives_classDecl (h : GivesDecl K decl) :
    GivesItem K (.seq [.symbol .identifier, .opt (.seq [.symbol .less, .symbol .identifier]),
      .symbol .leftBrace, .many (.seq [.opt (.symbol .kwStatic), .rule .function]),
      .symbol .rightBrace]) (classDecl decl) := by
  refine fun i => gives_expect_bind fun name hK hname => (gives_superclass i).bind
    fun u super j hsuper => gives_expect_bind fun brace _ hbrace =>
      (gives_many (fun _ => gives_member h) j).bind fun v ms k hms =>
        gives_expect_bind fun close _ hclose => gives_pure ⟨Spread.single ?_ rfl ⟨⟨hK, hname⟩,
          hsuper.2⟩, ?_⟩ fun hms hsuper => ⟨?_, ?_⟩
  · exact (hsuper.1.append hms.functions.1).perm ((perm_members ms).append_left _)
  · refine Stmt.ordered_classDecl (by simp) fun f hf => ?_
    have hmem : ∃ m ∈ ms, m.2 = f := by
      simp only [List.mem_append, List.mem_map, List.mem_filter] at hf
      grind
    obtain ⟨m, hm, rfl⟩ := hmem
    exact (hms.functions.2 m hm).mono (by grind)
  · exact .symbol_cons hname (.cons hsuper.derives (.symbol_cons hbrace
      (.cons (hms.derives_many fun _ _ _ _ h => h.derives) (.last (.symbol hclose)))))
  · have hmethods : (ms.filter fun m => !m.1).map Prod.snd = selectMembers false ms := by
      simp [selectMembers]
    have hstatics : (ms.filter fun m => m.1).map Prod.snd = selectMembers true ms := by
      simp [selectMembers]
    rw [hmethods, hstatics]
    exact .classDecl hsuper.numbered hms.members

/-! ## Statements -/

theorem isBranch_whileLoop {c : Expr} (hc : Spread K i [.expr c] j) (hbody : IsBranch K j w body k) :
    IsBranch K i w (.whileLoop c body) k :=
  ⟨⟨(hc.append hbody.spread).node rfl hbody.declared, Stmt.ordered_whileLoop hbody.ordered⟩, rfl⟩

/-- The clauses of a `for` loop and its body, in the order in which they are read. -/
theorem isBranch_forLoop {init : Option Stmt} {condition increment : Option Expr} {m : NodeId}
    {u v : List Token} (hinit : Spread K i (optionalStmt init) j ∧ ∀ s ∈ init, s.Ordered u)
    (hcondition : Spread K j (optionalExpr condition) k)
    (hincrement : Spread K k (optionalExpr increment) l) (hbody : IsBranch K l v body m) :
    IsBranch K i (u ++ v) (.forLoop init condition increment body) m := by
  have hround : ∃ round, IsBranch K k v round m ∧
      Stmt.forLoop init condition increment body = .forLoop init condition none round := by
    cases increment with
    | none => exact ⟨body, ⟨⟨hincrement.append hbody.spread, hbody.ordered⟩, hbody.declared⟩, rfl⟩
    | some e =>
      have hlast := Stmts.ordered_cons (Stmt.ordered_expression (w := []) e) Stmts.ordered_nil
      have hincrement : Spread K k [.stmt (.expression e)] l := hincrement.single rfl trivial
      refine ⟨.block [body, .expression e], ⟨⟨Spread.single ?_ rfl trivial, Stmt.ordered_block ?_⟩,
        rfl⟩, rfl⟩
      · exact (hincrement.append hbody.spread).perm (.swap ..)
      · simpa using Stmts.ordered_cons hbody.ordered hlast
  obtain ⟨round, hround, hbody⟩ := hround
  rw [hbody]
  have hcondition : Spread K j [.expr (condition.getD (.literal (.bool true)))] k := by
    cases condition with
    | none => exact hcondition.node rfl trivial
    | some c => exact hcondition
  have hloop := isBranch_whileLoop hcondition hround
  cases init with
  | none =>
    exact ⟨⟨hinit.1.append hloop.spread, hloop.ordered.mono (List.sublist_append_right u v)⟩, rfl⟩
  | some s =>
    refine ⟨⟨Spread.single (hinit.1.append hloop.spread) rfl trivial, Stmt.ordered_block ?_⟩, rfl⟩
    have hlast := Stmts.ordered_cons hloop.ordered Stmts.ordered_nil
    rw [List.append_nil] at hlast
    exact Stmts.ordered_cons (hinit.2 s rfl) hlast

theorem gives_forInitializer (i : NodeId) :
    Gives K i (fun w o k => Spread K i (optionalStmt o) k ∧ ∀ s ∈ o, s.Ordered w)
      (Clause (.choice [.rule .varDecl, .rule .exprStmt, .symbol .semicolon])
        (fun i o k => match o with
          | none => k = i
          | some s => Stmt.Numbered i s k) i) forInitializer := by
  have hsome : ∀ {w s k}, IsItem K i w s k →
      Spread K i (optionalStmt (some s)) k ∧ ∀ s' ∈ some s, s'.Ordered w := by
    intro w s k h
    refine ⟨h.spread, ?_⟩
    rintro _ ⟨⟩
    exact h.ordered
  refine gives_acceptIf_bind (gives_acceptIf_bind ?_ fun keyword _ hkeyword => ?_)
    fun semicolon _ hsemicolon => ?_
  · exact (gives_expressionStatement i).map (fun _ _ _ h => hsome h.toIsItem)
      fun _ _ _ h => ⟨.choice (by simp) h.derives, h.numbered⟩
  · refine (gives_varDecl i).map (fun _ _ _ h => hsome (h.cons keyword)) fun w s k h => ?_
    have hd : Derives (.rule .varDecl) (keyword :: w) := .rule (.symbol_cons hkeyword h.derives)
    exact ⟨.choice (by simp) hd, h.numbered⟩
  · exact gives_pure ⟨.nil (Nat.le_refl i), fun _ h => by cases h⟩
      ⟨.choice (by simp) (.symbol hsemicolon), rfl⟩

/-- The tree of a `for` loop, whichever of its clauses are missing. -/
theorem numbered_forLoop {init : Option Stmt} {condition increment : Option Expr} {body : Stmt}
    {j l m : NodeId} (hinit : match init with | none => j = i | some s => Stmt.Numbered i s j)
    (hcondition : Expr.OptionNumbered j condition k)
    (hincrement : Expr.OptionNumbered k increment l) (hbody : body.Numbered l m) :
    (Stmt.forLoop init condition increment body).Numbered i m := by
  have hcondition : Expr.Numbered j (condition.getD (.literal (.bool true))) k := by
    cases hcondition with
    | none => exact .literal
    | some hc => exact hc
  cases init with
  | none =>
    obtain rfl : j = i := hinit
    cases hincrement with
    | none => exact .whileLoop hcondition hbody
    | some he => exact .whileLoop hcondition (.round he hbody)
  | some s =>
    cases hincrement with
    | none => exact .block (.cons hinit (.cons (.whileLoop hcondition hbody) .nil))
    | some he => exact .block (.cons hinit (.cons (.whileLoop hcondition (.round he hbody)) .nil))

section Statements

variable (hstmt : GivesBranch K (.rule .statement) stmt)
include hstmt

theorem gives_forLoop :
    GivesBranch K (.seq [.symbol .leftParen,
      .choice [.rule .varDecl, .rule .exprStmt, .symbol .semicolon], .opt (.rule .expression),
      .symbol .semicolon, .opt (.rule .expression), .symbol .rightParen, .rule .statement])
      (forLoop stmt) := by
  refine fun i => gives_expect_bind fun paren _ hparen => (gives_forInitializer i).bind
    fun u init j hinit => (gives_terminated (gives_expressionUnless j)).bind
      fun v condition k hcond => (gives_expressionUnless k).bind fun w increment l hincr =>
        gives_expect_bind fun close _ hclose => (hstmt l).map (fun x body m hbody => ?_)
          fun x body m hbody hincr hcond hinit => ⟨?_, ?_⟩
  · have hloop := isBranch_forLoop hinit hcond hincr hbody
    exact ⟨⟨hloop.spread, hloop.ordered.mono (by grind)⟩, hloop.declared⟩
  · obtain ⟨v, z, rfl, hv, hz⟩ := Derives.seq_cons_iff.1 hcond.derives
    obtain ⟨semicolon, rfl, hs⟩ := Derives.symbol_iff.1 (Derives.seq_one_iff.1 hz)
    simp only [List.append_assoc, List.singleton_append]
    exact .symbol_cons hparen (.cons hinit.derives (.cons hv (.symbol_cons hs
      (.cons hincr.derives (.symbol_cons hclose (.last hbody.derives))))))
  · exact numbered_forLoop hinit.numbered hcond.numbered hincr.numbered hbody.numbered

theorem gives_ifStatement :
    GivesBranch K (.seq [.symbol .leftParen, .rule .expression, .symbol .rightParen,
      .rule .statement, .opt (.seq [.symbol .kwElse, .rule .statement])]) (ifStatement stmt) := by
  refine fun i => gives_expect_bind fun paren _ hparen => (gives_expression i).bind
    fun u c j hc => gives_expect_bind fun close _ hclose => (hstmt j).bind fun v a k ha =>
      gives_acceptIf_bind (gives_pure ?_ fun ha hc => ?_) fun keyword _ hkeyword =>
        (hstmt k).map (fun w b l hb => ?_) fun w b l hb ha hc => ⟨?_, ?_⟩
  · exact ⟨⟨(hc.append ha.spread).node rfl ha.declared,
      Stmt.ordered_ifThen (ha.ordered.mono (by grind))⟩, rfl⟩
  · exact ⟨.symbol_cons hparen (.cons hc.derives (.symbol_cons hclose
      (.cons ha.derives (.last .optNone)))), .ifThen hc.numbered ha.numbered⟩
  · exact ⟨⟨((hc.append ha.spread).append hb.spread).node rfl ⟨ha.declared, hb.declared⟩,
      Stmt.ordered_ifElse (ha.ordered.mono (by grind)) (hb.ordered.mono (by grind))⟩, rfl⟩
  · exact .symbol_cons hparen (.cons hc.derives (.symbol_cons hclose
      (.cons ha.derives (.last (.optSome (.symbol_cons hkeyword (.last hb.derives)))))))
  · exact .ifElse hc.numbered ha.numbered hb.numbered

theorem gives_whileLoop :
    GivesBranch K (.seq [.symbol .leftParen, .rule .expression, .symbol .rightParen,
      .rule .statement]) (whileLoop stmt) := by
  refine fun i => gives_expect_bind fun paren _ hparen => (gives_expression i).bind
    fun u c j hc => gives_expect_bind fun close _ hclose => (hstmt j).map (fun v body k hbody => ?_)
      fun v body k hbody hc => ⟨?_, .whileLoop hc.numbered hbody.numbered⟩
  · have hloop := isBranch_whileLoop hc hbody
    exact ⟨⟨hloop.spread, hloop.ordered.mono (by grind)⟩, rfl⟩
  · exact .symbol_cons hparen (.cons hc.derives (.symbol_cons hclose (.last hbody.derives)))

end Statements

/-- A statement or declaration behind the keyword that its rule starts with. -/
theorem Clause.behind {r r' : Nonterminal} {es rs : List Ebnf} {t : Token}
    {a : Stmt} (h : Clause (.seq es) Stmt.Numbered i w a k) (ht : t.is s = true)
    (hr : rules r = .seq (.symbol s :: es)) (hr' : rules r' = .choice rs) (hmem : .rule r ∈ rs) :
    Clause (.rule r') Stmt.Numbered i (t :: w) a k := by
  have hd : Derives (rules r) (t :: w) := hr ▸ .symbol_cons ht h.derives
  have hd' : Derives (rules r') (t :: w) := hr' ▸ .choice hmem (.rule hd)
  exact ⟨.rule hd', h.numbered⟩

variable (hstmt : GivesBranch K (.rule .statement) stmt) (hdecl : GivesDecl K decl)
include hstmt hdecl

/-- Each keyword leads to one rule, and the rest are expression statements. -/
theorem gives_statement : GivesBranch K (.rule .statement) (statement stmt decl) := by
  intro i
  refine gives_acceptIf_bind ((gives_expressionStatement i).mono (fun _ _ _ h => h)
    fun w s k h => ⟨.rule (.choice (by simp) h.derives), h.numbered⟩) fun t hK ht => ?_
  simp only
  split
  case h_1 hk =>
    refine (gives_forLoop hstmt i).mono (fun _ _ _ h => h.cons t) fun w s k h => ?_
    exact h.behind (r := .forStmt) (Token.is_of_kind hk) rfl rfl (by simp)
  case h_2 hk =>
    refine (gives_ifStatement hstmt i).mono (fun _ _ _ h => h.cons t) fun w s k h => ?_
    exact h.behind (r := .ifStmt) (Token.is_of_kind hk) rfl rfl (by simp)
  case h_3 hk =>
    refine gives_terminated_expression.map (fun w e _ h => ?_) fun w e k h => ?_
    · exact ⟨⟨h.node rfl trivial, Stmt.ordered_of_parts (List.nil_sublist _) (fun _ => rfl) rfl⟩, rfl⟩
    exact Clause.behind (r := .printStmt) ⟨h.derives, .print h.numbered⟩
      (Token.is_of_kind hk) rfl rfl (by simp)
  case h_4 hk =>
    refine (gives_terminated (gives_expressionUnless i)).map (fun w _ _ h => ⟨⟨h.single rfl hK,
      Stmt.ordered_of_parts (List.nil_sublist _) (fun _ => rfl) rfl⟩, rfl⟩) fun w e k h => ?_
    exact Clause.behind (r := .returnStmt) ⟨h.derives, .returnWith h.numbered⟩
      (Token.is_of_kind hk) rfl rfl (by simp)
  case h_5 hk =>
    refine (gives_whileLoop hstmt i).mono (fun _ _ _ h => h.cons t) fun w s k h => ?_
    exact h.behind (r := .whileStmt) (Token.is_of_kind hk) rfl rfl (by simp)
  case h_6 hfor hif hprint hreturn hwhile =>
    have hbrace : t.is .leftBrace = true := by
      simp only [List.any_cons, List.any_nil, Bool.or_eq_true, Token.is_iff] at ht
      simp_all [Token.is_iff]
    refine (gives_block hdecl i).map (fun w _ _ h => ⟨⟨h.spread.single rfl trivial,
      Stmt.ordered_block (h.ordered.mono (List.sublist_cons_self t w))⟩, rfl⟩) fun w ss k h => ?_
    exact Clause.behind (r := .block) ⟨h.derives, .block h.numbered⟩ hbrace rfl rfl (by simp)

theorem gives_declarationRule : GivesItem K (.rule .declaration) (declarationRule stmt decl) := by
  intro i
  refine gives_acceptIf_bind ((gives_statement hstmt hdecl i).mono (fun _ _ _ h => h.toIsItem)
    fun w s k h => ⟨.rule (.choice (by simp) h.derives), h.numbered⟩) fun t _ ht => ?_
  simp only
  split
  case h_1 hk =>
    refine (gives_classDecl hdecl i).mono (fun _ _ _ h => h.cons t) fun w s k h => ?_
    exact h.behind (r := .classDecl) (Token.is_of_kind hk) rfl rfl (by simp)
  case h_2 hk =>
    refine (gives_function hdecl i).map (fun w f k h => ?_) fun w f k h => ?_
    · have hitem : IsItem K i w (.funDecl f) k :=
        ⟨h.spread.node rfl trivial, Stmt.ordered_funDecl h.name h.ordered⟩
      exact hitem.cons t
    · exact Clause.behind (r := .funDecl) ⟨.last h.derives, .funDecl h.numbered⟩
        (Token.is_of_kind hk) rfl rfl (by simp)
  case h_3 hclass hfun =>
    have hvar : t.is .kwVar = true := by
      simp only [List.any_cons, List.any_nil, Bool.or_eq_true, Token.is_iff] at ht
      simp_all [Token.is_iff]
    refine (gives_varDecl i).mono (fun _ _ _ h => h.cons t) fun w s k h => ?_
    exact h.behind (r := .varDecl) hvar rfl rfl (by simp)

end Rules

theorem gives_rounds (n : Nat) :
    GivesBranch K (.rule .statement)
      (nest^[n] (reject (.expected "expression"), reject (.expected "expression"))).1 ∧
      GivesDecl K (nest^[n] (reject (.expected "expression"), reject (.expected "expression"))).2 := by
  induction n with
  | zero => exact ⟨fun _ => gives_reject, fun _ => gives_reject⟩
  | succ n ih =>
    rw [Function.iterate_succ_apply']
    exact ⟨gives_statement ih.1 ih.2, fun i => gives_recover (gives_declarationRule ih.1 ih.2 i)⟩

theorem gives_branch : GivesBranch K (.rule .statement) branch := by
  intro i c hc hi
  rw [← (declaration_rounds _ (Nat.lt_succ_self _)).1]
  exact (gives_rounds _).1 i c hc hi

theorem gives_declaration : GivesDecl K declaration := by
  intro i c hc hi
  rw [← (declaration_rounds _ (Nat.lt_succ_self _)).2]
  exact (gives_rounds _).2 i c hc hi

theorem gives_programItem (i : NodeId) :
    Gives K i (Optional (IsDecl K) i) (Optional DeclClause i) programItem := by
  refine gives_look_bind (fun _ => ⟨_, rfl⟩) fun b => ?_
  cases b with
  | true => exact gives_none
  | false => exact gives_some (gives_declaration i)

theorem gives_program (i : NodeId) :
    Gives K i (IsBody K i) (Clause (.many (.rule .declaration)) Stmts.Numbered i) program :=
  (gives_many (fun _ => gives_programItem) i).map (fun _ _ _ h => h.isBody)
    fun _ _ _ h => h.declarations

end Parser

section

variable {tokens : List Token}

/-- Whatever is reported, a program is given as a body is, and only at its tokens. -/
theorem isBody_parse {K : Token → Prop} (hK : ∀ t ∈ tokens, K t) (i : NodeId) :
    Parser.IsBody K i tokens (parse i tokens).statements (parse i tokens).fresh ∧
      ∀ d ∈ (parse i tokens).faults, ∃ t fault,
        (K t ∨ t = Token.endMark 0) ∧ d = .syntactic t.site fault := by
  obtain ⟨w, hw⟩ := Parser.gives_program i ⟨tokens, i⟩ hK rfl
  refine ⟨?_, hw.faults⟩
  have hsublist := List.sublist_append_left w (Parser.program ⟨tokens, i⟩).cursor.rest
  rw [← hw.rest] at hsublist
  simp only [parse]
  cases hr : (Parser.program ⟨tokens, i⟩).result with
  | none => exact ⟨.nil hw.le, Stmts.ordered_nil.mono (List.nil_sublist _)⟩
  | some ss =>
    have hbody := hw.result ss hr
    exact ⟨hbody.spread, hbody.ordered.mono hsublist⟩

/-- Whatever is reported, the statements that are read are well formed. -/
theorem wellFormed_parse (h : ∀ t ∈ tokens, t.Spelled) (i : NodeId) :
    Stmts.WellFormed (parse i tokens).statements :=
  Stmts.wellFormed_of_formed _ fun _ hs =>
    (isBody_parse h i).1.spread.formed _ (List.mem_map_of_mem hs)

/-- Tokens without a fault are read as a program, and its nodes are numbered. -/
theorem Parser.clause_parse {fresh : NodeId} (h : (parse fresh tokens).faults = []) :
    (∃ rest, program.Reads ⟨tokens, fresh⟩ (parse fresh tokens).statements
      ⟨rest, (parse fresh tokens).fresh⟩) ∧
      Stmts.Numbered fresh (parse fresh tokens).statements (parse fresh tokens).fresh := by
  obtain ⟨w, hw⟩ := gives_program (K := fun _ => True) fresh ⟨tokens, fresh⟩ (fun _ _ => trivial) rfl
  rcases hp : program ⟨tokens, fresh⟩ with ⟨_ | ss, ⟨rest, k⟩, faults⟩
  · rw [hp] at hw
    simp only [parse, hp] at h
    exact absurd h (hw.heard rfl)
  · rw [hp] at hw
    simp only [parse, hp] at h ⊢
    subst h
    exact ⟨⟨rest, hp⟩, (hw.silent rfl ss rfl).numbered⟩

theorem Parser.reads_parse {fresh : NodeId} (h : (parse fresh tokens).faults = []) :
    ∃ rest, program.Reads ⟨tokens, fresh⟩ (parse fresh tokens).statements
      ⟨rest, (parse fresh tokens).fresh⟩ :=
  (clause_parse h).1

end

/-- The numbers of a program are unambiguous, and from the given number on. -/
theorem spread_parse (fresh : NodeId) (tokens : List Token) :
    Parts.Spread (fun _ => True) fresh [.program (parse fresh tokens).statements]
      (parse fresh tokens).fresh :=
  (isBody_parse (fun _ _ => trivial) fresh).1.spread.single rfl trivial

/-- Programs read one after the other, each with the numbers behind those of the one before. -/
def parseAll (fresh : NodeId) : List (List Token) → List Parsed
  | [] => []
  | tokens :: rest => parse fresh tokens :: parseAll (parse fresh tokens).fresh rest

/-- Programs that are read one after the other have no number in common. -/
theorem spread_parseAll (fresh : NodeId) (sources : List (List Token)) :
    ∃ k, Parts.Spread (fun _ => True) fresh
      ((parseAll fresh sources).map fun parsed => .program parsed.statements) k := by
  induction sources generalizing fresh with
  | nil => exact ⟨fresh, .nil (Nat.le_refl fresh)⟩
  | cons tokens sources ih =>
    obtain ⟨k, hk⟩ := ih (parse fresh tokens).fresh
    exact ⟨k, (spread_parse fresh tokens).append hk⟩

end Lox
