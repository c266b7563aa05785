import Lox.Proofs.Scope.Visits
import Lox.Proofs.Syntax.Relabeling
import Mathlib.Data.List.Forall2

/-!
# Programs that differ in names, numbers and lines

Two programs are alike if they have the same shape, their nodes and their lines correspond to each
other, and in some of the scopes a name is replaced by another one. A scope in which the name is
replaced is flagged, and the flags of the scopes around code are kept in a list, the innermost one
first. A node that is bound to a flagged scope has the new name. So the two names need to be known,
and which nodes and which lines correspond to each other, together with how many scopes out the
nodes are bound.
-/

namespace Lox

variable {flag : Bool} {t : Token}

/-- A name and another one for it. Neither of them is a keyword. -/
structure NameChange where
  old : String
  new : String
  old_ne : old ≠ "this" ∧ old ≠ "super"
  new_ne : new ≠ "this" ∧ new ≠ "super"

namespace NameChange

variable (r : NameChange)

/-- What is written for a name that belongs to a scope with the given flag. -/
def name (flag : Bool) (x : String) : String := if flag = true ∧ x = r.old then r.new else x

def token (flag : Bool) (t : Token) : Token := { t with lexeme := r.name flag t.lexeme }

/-- In a flagged scope the new name is not in use. -/
def Avoids (flag : Bool) (t : Token) : Prop := flag = true → t.lexeme ≠ r.new

/-- A name that is written as it was. -/
def Keeps (flag : Bool) (t : Token) : Prop :=
  flag = true → t.lexeme ≠ r.old ∧ t.lexeme ≠ r.new

@[simp] theorem name_false (x : String) : r.name false x = x := by simp [name]

@[simp] theorem token_false (t : Token) : r.token false t = t := by simp [token]

@[simp] theorem lexeme_token (flag : Bool) (t : Token) :
    (r.token flag t).lexeme = r.name flag t.lexeme := rfl

theorem avoids_false (t : Token) : r.Avoids false t := nofun

theorem keeps_false (t : Token) : r.Keeps false t := nofun

variable {r}

theorem name_of_ne {x : String} (h : flag = true → x ≠ r.old) :
    r.name flag x = x := if_neg fun hx => h hx.1 hx.2

theorem Keeps.name_eq (h : r.Keeps flag t) :
    r.name flag t.lexeme = t.lexeme := name_of_ne fun hflag => (h hflag).1

theorem Keeps.token_eq (h : r.Keeps flag t) : r.token flag t = t := by
  rw [token, h.name_eq]

theorem Keeps.avoids (h : r.Keeps flag t) : r.Avoids flag t :=
  fun hflag => (h hflag).2

/-- Different names are written differently. -/
theorem name_inj {x y : String} (hx : flag = true → x ≠ r.new) (hy : flag = true → y ≠ r.new)
    (h : r.name flag x = r.name flag y) : x = y := by
  cases flag with
  | false => simpa using h
  | true =>
    have hx := hx rfl
    have hy := hy rfl
    unfold name at h
    split at h <;> split at h <;> simp_all

/-- Different names are written differently, wherever they belong, if the new one is not in use. -/
theorem name_ne (flag flag' : Bool) {x y : String} (hx : x ≠ r.new) (hy : y ≠ r.new)
    (h : x ≠ y) : r.name flag x ≠ r.name flag' y := by
  unfold name
  split <;> split <;> simp_all [Ne.symm]

end NameChange

/-- A change of a name, which nodes correspond to each other, with the number of scopes that they go
out, and which lines do. -/
structure Likeness extends NameChange where
  same : NodeId → NodeId → Option Nat → Prop
  line : Nat → Nat → Prop

def Likeness.withSame (r : Likeness) (same : NodeId → NodeId → Option Nat → Prop) : Likeness :=
  { r with same := same }

/-- The flag of the scope that a node is bound to. Global names are in no flagged scope. -/
def flagAt (flags : List Bool) : Option Nat → Bool
  | none => false
  | some d => flags.getD d false

/-- The flags of the scopes around the members of a class. -/
def ClassDecl.flags (superclass : Option Expr) (flags : List Bool) : List Bool :=
  if superclass.isSome then false :: flags else flags

/-! ## Trees -/

/-- Tokens that are the same but for their lines, which correspond to each other. -/
structure Token.Alike (r : Likeness) (t t' : Token) : Prop where
  kind : t'.kind = t.kind
  lexeme : t'.lexeme = t.lexeme
  line : r.line t.line t'.line

mutual

/-- Expressions that are alike. -/
inductive Expr.Alike (r : Likeness) (flags : List Bool) : Expr → Expr → Prop
  | literal {l : Literal} : Expr.Alike r flags (.literal l) (.literal l)
  | grouping {e e' : Expr} :
      Expr.Alike r flags e e' → Expr.Alike r flags (.grouping e) (.grouping e')
  | unary {op op' : Token} {e e' : Expr} : op.Alike r op' →
      Expr.Alike r flags e e' → Expr.Alike r flags (.unary op e) (.unary op' e')
  | binary {a a' b b' : Expr} {op op' : Token} : op.Alike r op' → Expr.Alike r flags a a' →
      Expr.Alike r flags b b' → Expr.Alike r flags (.binary a op b) (.binary a' op' b')
  | logical {a a' b b' : Expr} {op op' : Token} : op.Alike r op' → Expr.Alike r flags a a' →
      Expr.Alike r flags b b' → Expr.Alike r flags (.logical a op b) (.logical a' op' b')
  | conditional {c c' a a' b b' : Expr} : Expr.Alike r flags c c' → Expr.Alike r flags a a' →
      Expr.Alike r flags b b' → Expr.Alike r flags (.conditional c a b) (.conditional c' a' b')
  | var {id id' : NodeId} {d : Option Nat} {name name' : Token} : r.same id id' d →
      r.Avoids (flagAt flags d) name → (r.token (flagAt flags d) name).Alike r name' →
        Expr.Alike r flags (.var id name) (.var id' name')
  | assign {id id' : NodeId} {d : Option Nat} {name name' : Token} {e e' : Expr} :
      r.same id id' d → r.Avoids (flagAt flags d) name →
      (r.token (flagAt flags d) name).Alike r name' → Expr.Alike r flags e e' →
        Expr.Alike r flags (.assign id name e) (.assign id' name' e')
  | call {f f' : Expr} {paren paren' : Token} {es es' : List Expr} : paren.Alike r paren' →
      Expr.Alike r flags f f' → Exprs.Alike r flags es es' →
        Expr.Alike r flags (.call f paren es) (.call f' paren' es')
  | get {e e' : Expr} {name name' : Token} : name.Alike r name' →
      Expr.Alike r flags e e' → Expr.Alike r flags (.get e name) (.get e' name')
  | set {e e' v v' : Expr} {name name' : Token} : name.Alike r name' → Expr.Alike r flags e e' →
      Expr.Alike r flags v v' → Expr.Alike r flags (.set e name v) (.set e' name' v')
  | thisRef {id id' : NodeId} {d : Option Nat} {keyword keyword' : Token} : r.same id id' d →
      keyword.lexeme = "this" → keyword.Alike r keyword' →
        Expr.Alike r flags (.thisRef id keyword) (.thisRef id' keyword')
  | superRef {id id' : NodeId} {d : Option Nat} {keyword keyword' method method' : Token} :
      r.same id id' d → keyword.lexeme = "super" → keyword.Alike r keyword' →
      method.Alike r method' →
        Expr.Alike r flags (.superRef id keyword method) (.superRef id' keyword' method')

inductive Exprs.Alike (r : Likeness) (flags : List Bool) : List Expr → List Expr → Prop
  | nil : Exprs.Alike r flags [] []
  | cons {e e' : Expr} {es es' : List Expr} : Expr.Alike r flags e e' →
      Exprs.Alike r flags es es' → Exprs.Alike r flags (e :: es) (e' :: es')

end

/-- Expressions that may be missing, and that are alike. -/
inductive Expr.OptionAlike (r : Likeness) (flags : List Bool) : Option Expr → Option Expr → Prop
  | none : Expr.OptionAlike r flags none none
  | some {e e' : Expr} : Expr.Alike r flags e e' → Expr.OptionAlike r flags (some e) (some e')

mutual

/-- Statements that are alike. A block has a flag of its own. -/
inductive Stmt.Alike (r : Likeness) : List Bool → Stmt → Stmt → Prop
  | expression {flags : List Bool} {e e' : Expr} :
      Expr.Alike r flags e e' → Stmt.Alike r flags (.expression e) (.expression e')
  | print {flags : List Bool} {e e' : Expr} :
      Expr.Alike r flags e e' → Stmt.Alike r flags (.print e) (.print e')
  | varDecl {flags : List Bool} {name name' : Token} {o o' : Option Expr} :
      r.Avoids (flags.headD false) name →
      name'.lexeme = r.name (flags.headD false) name.lexeme → Expr.OptionAlike r flags o o' →
        Stmt.Alike r flags (.varDecl name o) (.varDecl name' o')
  | block {flags : List Bool} (flag : Bool) {body body' : List Stmt} :
      Stmts.Alike r (flag :: flags) body body' → Stmt.Alike r flags (.block body) (.block body')
  | ifThen {flags : List Bool} {c c' : Expr} {a a' : Stmt} : Expr.Alike r flags c c' →
      Stmt.Alike r flags a a' → Stmt.Alike r flags (.ifThen c a) (.ifThen c' a')
  | ifElse {flags : List Bool} {c c' : Expr} {a a' b b' : Stmt} : Expr.Alike r flags c c' →
      Stmt.Alike r flags a a' → Stmt.Alike r flags b b' →
        Stmt.Alike r flags (.ifElse c a b) (.ifElse c' a' b')
  | whileLoop {flags : List Bool} {c c' : Expr} {body body' : Stmt} : Expr.Alike r flags c c' →
      Stmt.Alike r flags body body' →
        Stmt.Alike r flags (.whileLoop c body) (.whileLoop c' body')
  | funDecl {flags : List Bool} {decl decl' : FunctionDecl} :
      r.Keeps (flags.headD false) decl.name → FunctionDecl.Alike r flags decl decl' →
        Stmt.Alike r flags (.funDecl decl) (.funDecl decl')
  | returnWith {flags : List Bool} {keyword keyword' : Token} {o o' : Option Expr} :
      Expr.OptionAlike r flags o o' →
        Stmt.Alike r flags (.returnWith keyword o) (.returnWith keyword' o')
  | classDecl {flags : List Bool} {name name' : Token} {superclass superclass' : Option Expr}
      {methods methods' statics statics' : List FunctionDecl} :
      r.Keeps (flags.headD false) name → name.Alike r name' →
      Expr.OptionAlike r flags superclass superclass' →
      FunctionDecls.Alike r (false :: ClassDecl.flags superclass flags) methods methods' →
      FunctionDecls.Alike r (ClassDecl.flags superclass flags) statics statics' →
        Stmt.Alike r flags (.classDecl ⟨name, superclass, methods, statics⟩)
          (.classDecl ⟨name', superclass', methods', statics'⟩)

inductive Stmts.Alike (r : Likeness) : List Bool → List Stmt → List Stmt → Prop
  | nil {flags : List Bool} : Stmts.Alike r flags [] []
  | cons {flags : List Bool} {s s' : Stmt} {ss ss' : List Stmt} : Stmt.Alike r flags s s' →
      Stmts.Alike r flags ss ss' → Stmts.Alike r flags (s :: ss) (s' :: ss')

/-- Functions that are alike. Their parameters and their bodies share a flag. -/
inductive FunctionDecl.Alike (r : Likeness) : List Bool → FunctionDecl → FunctionDecl → Prop
  | mk {flags : List Bool} (flag : Bool) {name name' : Token} {params params' : List Token}
      {body body' : List Stmt} : name'.lexeme = name.lexeme →
      List.Forall₂ (fun p p' => r.Avoids flag p ∧ p'.lexeme = r.name flag p.lexeme) params
        params' →
      Stmts.Alike r (flag :: flags) body body' →
        FunctionDecl.Alike r flags ⟨name, params, body⟩ ⟨name', params', body'⟩

inductive FunctionDecls.Alike (r : Likeness) :
    List Bool → List FunctionDecl → List FunctionDecl → Prop
  | nil {flags : List Bool} : FunctionDecls.Alike r flags [] []
  | cons {flags : List Bool} {f f' : FunctionDecl} {fs fs' : List FunctionDecl} :
      FunctionDecl.Alike r flags f f' → FunctionDecls.Alike r flags fs fs' →
        FunctionDecls.Alike r flags (f :: fs) (f' :: fs')

end

section

variable {r : Likeness} {flags : List Bool}

theorem Token.Alike.is_eq {t t' : Token} (h : t.Alike r t') (s : Symbol) : t'.is s = t.is s := by
  rw [Token.is, Token.is, h.kind]

theorem FunctionDecl.Alike.lexeme_name {f f' : FunctionDecl} (h : f.Alike r flags f') :
    f'.name.lexeme = f.name.lexeme := by
  cases h
  assumption

theorem FunctionDecl.Alike.arity_eq {f f' : FunctionDecl} (h : f.Alike r flags f') :
    f'.arity = f.arity := by
  cases h with
  | mk flag _ hparams => exact hparams.length_eq.symm

/-- Superclasses that are alike are reported on lines that correspond to each other. -/
theorem Expr.OptionAlike.line_superclassToken {o o' : Option Expr} {name name' : Token}
    (hname : name.Alike r name') (h : Expr.OptionAlike r flags o o') :
    r.line (superclassToken name o).line (superclassToken name' o').line := by
  cases h with
  | none => exact hname.line
  | some h =>
    cases h with
    | var _ _ hvar => exact hvar.line
    | _ => exact hname.line

/-! ## More nodes that correspond to each other -/

variable {same : NodeId → NodeId → Option Nat → Prop}

theorem Token.Alike.withSame {t t' : Token} (h : t.Alike r t') : t.Alike (r.withSame same) t' :=
  ⟨h.kind, h.lexeme, h.line⟩

mutual

theorem Expr.Alike.mono (hsame : ∀ i j d, r.same i j d → same i j d) {e e' : Expr}
    (h : e.Alike r flags e') : e.Alike (r.withSame same) flags e' :=
  match h with
  | .literal => .literal
  | .grouping h => .grouping (h.mono hsame)
  | .unary hop h => .unary hop.withSame (h.mono hsame)
  | .binary hop ha hb => .binary hop.withSame (ha.mono hsame) (hb.mono hsame)
  | .logical hop ha hb => .logical hop.withSame (ha.mono hsame) (hb.mono hsame)
  | .conditional hc ha hb => .conditional (hc.mono hsame) (ha.mono hsame) (hb.mono hsame)
  | .var hid hname ht => .var (r := r.withSame same) (hsame _ _ _ hid) hname ht.withSame
  | .assign hid hname ht h =>
    .assign (r := r.withSame same) (hsame _ _ _ hid) hname ht.withSame (h.mono hsame)
  | .call hparen hf hes => .call hparen.withSame (hf.mono hsame) (hes.mono hsame)
  | .get hname h => .get hname.withSame (h.mono hsame)
  | .set hname he hv => .set hname.withSame (he.mono hsame) (hv.mono hsame)
  | .thisRef hid hkeyword ht =>
    .thisRef (r := r.withSame same) (hsame _ _ _ hid) hkeyword ht.withSame
  | .superRef hid hkeyword ht hmethod =>
    .superRef (r := r.withSame same) (hsame _ _ _ hid) hkeyword ht.withSame hmethod.withSame

theorem Exprs.Alike.mono (hsame : ∀ i j d, r.same i j d → same i j d) {es es' : List Expr}
    (h : Exprs.Alike r flags es es') : Exprs.Alike (r.withSame same) flags es es' :=
  match h with
  | .nil => .nil
  | .cons he hes => .cons (he.mono hsame) (hes.mono hsame)

end

theorem Expr.OptionAlike.mono (hsame : ∀ i j d, r.same i j d → same i j d) {o o' : Option Expr}
    (h : Expr.OptionAlike r flags o o') : Expr.OptionAlike (r.withSame same) flags o o' := by
  cases h with
  | none => exact .none
  | some h => exact .some (h.mono hsame)

mutual

theorem Stmt.Alike.mono (hsame : ∀ i j d, r.same i j d → same i j d) {flags : List Bool}
    {s s' : Stmt} (h : s.Alike r flags s') : s.Alike (r.withSame same) flags s' :=
  match h with
  | .expression h => .expression (h.mono hsame)
  | .print h => .print (h.mono hsame)
  | .varDecl hname ht h => .varDecl (r := r.withSame same) hname ht (h.mono hsame)
  | .block flag h => .block flag (h.mono hsame)
  | .ifThen hc ha => .ifThen (hc.mono hsame) (ha.mono hsame)
  | .ifElse hc ha hb => .ifElse (hc.mono hsame) (ha.mono hsame) (hb.mono hsame)
  | .whileLoop hc hbody => .whileLoop (hc.mono hsame) (hbody.mono hsame)
  | .funDecl hname h => .funDecl (r := r.withSame same) hname (h.mono hsame)
  | .returnWith h => .returnWith (h.mono hsame)
  | .classDecl hname ht hsuper hmethods hstatics =>
    .classDecl (r := r.withSame same) hname ht.withSame (hsuper.mono hsame) (hmethods.mono hsame)
      (hstatics.mono hsame)

theorem Stmts.Alike.mono (hsame : ∀ i j d, r.same i j d → same i j d) {flags : List Bool}
    {ss ss' : List Stmt} (h : Stmts.Alike r flags ss ss') :
    Stmts.Alike (r.withSame same) flags ss ss' :=
  match h with
  | .nil => .nil
  | .cons hs hss => .cons (hs.mono hsame) (hss.mono hsame)

theorem FunctionDecl.Alike.mono (hsame : ∀ i j d, r.same i j d → same i j d) {flags : List Bool}
    {f f' : FunctionDecl} (h : f.Alike r flags f') : f.Alike (r.withSame same) flags f' :=
  match h with
  | .mk flag hname hparams hbody =>
    .mk (r := r.withSame same) flag hname hparams (hbody.mono hsame)

theorem FunctionDecls.Alike.mono (hsame : ∀ i j d, r.same i j d → same i j d) {flags : List Bool}
    {fs fs' : List FunctionDecl} (h : FunctionDecls.Alike r flags fs fs') :
    FunctionDecls.Alike (r.withSame same) flags fs fs' :=
  match h with
  | .nil => .nil
  | .cons hf hfs => .cons (hf.mono hsame) (hfs.mono hsame)

end

/-! ## Programs with other numbers and on other lines -/

theorem flagAt_eq_false (hflags : ∀ b ∈ flags, b = false) (d : Option Nat) :
    flagAt flags d = false := by
  cases d with
  | none => rfl
  | some d =>
    rw [flagAt, List.getD_eq_getElem?_getD]
    cases hget : flags[d]? with
    | none => rfl
    | some b => exact hflags b (List.mem_of_getElem? hget)

theorem headD_eq_false (hflags : ∀ b ∈ flags, b = false) : flags.headD false = false := by
  cases flags with
  | nil => rfl
  | cons b flags => exact hflags b (List.mem_cons_self ..)

theorem flags_eq_false (superclass : Option Expr) (hflags : ∀ b ∈ flags, b = false) :
    ∀ b ∈ ClassDecl.flags superclass flags, b = false := by
  unfold ClassDecl.flags
  split
  · exact List.forall_mem_cons.2 ⟨rfl, hflags⟩
  · exact hflags

theorem Token.keeps_unflagged {flag : Bool} (hflag : flag = false) (t : Token) :
    r.Avoids flag t ∧ t.lexeme = r.name flag t.lexeme := by
  rw [hflag, NameChange.name_false]
  exact ⟨r.avoids_false t, rfl⟩

variable {q : Relabeling} {cls : ClassRole} {layers : List Layer}

theorem Token.alike_relabel (hline : ∀ n, r.line n (q.line n)) (t : Token) :
    t.Alike r (t.relabel q) := ⟨rfl, rfl, hline t.line⟩

/-- A name is written as it was where no scope is flagged. -/
theorem Token.alike_unflagged (hline : ∀ n, r.line n (q.line n)) {flag : Bool}
    (hflag : flag = false) (t : Token) :
    r.Avoids flag t ∧ (r.token flag t).Alike r (t.relabel q) := by
  rw [hflag, NameChange.token_false]
  exact ⟨r.avoids_false t, t.alike_relabel hline⟩

mutual

/-- An expression is like itself with other numbers. -/
theorem Expr.alike_relabel (hline : ∀ n, r.line n (q.line n))
    (hflags : ∀ b ∈ flags, b = false) (e : Expr) (he : e.WellFormed)
    (h : ∀ v ∈ e.visits cls layers, ∃ d, r.same v.id (v.id + q.shift) d) :
    e.Alike r flags (e.relabel q) := by
  cases e with
  | literal => exact .literal
  | grouping inner => exact .grouping (inner.alike_relabel hline hflags he h)
  | unary op operand =>
    exact .unary (op.alike_relabel hline) (operand.alike_relabel hline hflags he.2 h)
  | binary left op right =>
    obtain ⟨hl, hr⟩ := List.forall_mem_append.1 h
    exact .binary (op.alike_relabel hline) (left.alike_relabel hline hflags he.2.1 hl)
      (right.alike_relabel hline hflags he.2.2 hr)
  | logical left op right =>
    obtain ⟨hl, hr⟩ := List.forall_mem_append.1 h
    exact .logical (op.alike_relabel hline) (left.alike_relabel hline hflags he.1 hl)
      (right.alike_relabel hline hflags he.2 hr)
  | conditional c a b =>
    obtain ⟨hc, hab⟩ := List.forall_mem_append.1 h
    obtain ⟨ha, hb⟩ := List.forall_mem_append.1 hab
    exact .conditional (c.alike_relabel hline hflags he.1 hc)
      (a.alike_relabel hline hflags he.2.1 ha)
      (b.alike_relabel hline hflags he.2.2 hb)
  | var id name =>
    obtain ⟨d, hd⟩ := h _ (List.mem_singleton_self _)
    obtain ⟨hname, ht⟩ := name.alike_unflagged hline (flagAt_eq_false hflags d)
    exact .var hd hname ht
  | assign id name value =>
    obtain ⟨hvalue, hid⟩ := List.forall_mem_append.1 h
    obtain ⟨d, hd⟩ := hid _ (List.mem_singleton_self _)
    obtain ⟨hname, ht⟩ := name.alike_unflagged hline (flagAt_eq_false hflags d)
    exact .assign hd hname ht (value.alike_relabel hline hflags he.2 hvalue)
  | call callee paren arguments =>
    obtain ⟨hcallee, harguments⟩ := List.forall_mem_append.1 h
    exact .call (paren.alike_relabel hline) (callee.alike_relabel hline hflags he.1 hcallee)
      (Exprs.alike_relabel hline hflags arguments he.2 harguments)
  | get object name =>
    exact .get (name.alike_relabel hline) (object.alike_relabel hline hflags he h)
  | set object name value =>
    obtain ⟨hvalue, hobject⟩ := List.forall_mem_append.1 h
    exact .set (name.alike_relabel hline) (object.alike_relabel hline hflags he.1 hobject)
      (value.alike_relabel hline hflags he.2 hvalue)
  | thisRef id keyword =>
    obtain ⟨d, hd⟩ := h _ (List.mem_singleton_self _)
    exact .thisRef hd he (keyword.alike_relabel hline)
  | superRef id keyword method =>
    obtain ⟨d, hd⟩ := h _ (List.mem_singleton_self _)
    exact .superRef hd he (keyword.alike_relabel hline) (method.alike_relabel hline)

theorem Exprs.alike_relabel (hline : ∀ n, r.line n (q.line n))
    (hflags : ∀ b ∈ flags, b = false) (es : List Expr) (hes : Exprs.WellFormed es)
    (h : ∀ v ∈ Exprs.visits cls layers es, ∃ d, r.same v.id (v.id + q.shift) d) :
    Exprs.Alike r flags es (Exprs.relabel q es) := by
  cases es with
  | nil => exact .nil
  | cons e es =>
    obtain ⟨he, hrest⟩ := List.forall_mem_append.1 h
    exact .cons (e.alike_relabel hline hflags hes.1 he)
      (Exprs.alike_relabel hline hflags es hes.2 hrest)

end

theorem Expr.optionAlike_relabel (hline : ∀ n, r.line n (q.line n))
    (hflags : ∀ b ∈ flags, b = false) (o : Option Expr) (ho : Expr.OptionWellFormed o)
    (h : ∀ v ∈ Expr.optionVisits cls layers o, ∃ d, r.same v.id (v.id + q.shift) d) :
    Expr.OptionAlike r flags o (o.map (Expr.relabel q)) := by
  cases o with
  | none => exact .none
  | some e => exact .some (e.alike_relabel hline hflags ho h)

theorem Expr.SuperclassWellFormed.option {o : Option Expr} (h : Expr.SuperclassWellFormed o) :
    Expr.OptionWellFormed o := by
  cases o with
  | none => trivial
  | some e =>
    cases e with
    | var id name => exact h
    | _ => exact h.elim

mutual

/-- A statement is like itself with other numbers. -/
theorem Stmt.alike_relabel {flags : List Bool} {cls : ClassRole} {layers : List Layer}
    (hline : ∀ n, r.line n (q.line n)) (hflags : ∀ b ∈ flags, b = false)
    (s : Stmt) (hs : s.WellFormed)
    (h : ∀ v ∈ s.visits cls layers, ∃ d, r.same v.id (v.id + q.shift) d) :
    s.Alike r flags (s.relabel q) := by
  have hhead := headD_eq_false hflags
  cases s with
  | expression e => exact .expression (e.alike_relabel hline hflags hs h)
  | print e => exact .print (e.alike_relabel hline hflags hs h)
  | varDecl name value =>
    obtain ⟨hname, ht⟩ := name.keeps_unflagged hhead
    exact .varDecl hname ht (Expr.optionAlike_relabel hline hflags value hs.2 h)
  | block body =>
    exact .block false (Stmts.alike_relabel hline (List.forall_mem_cons.2 ⟨rfl, hflags⟩) body hs h)
  | ifThen c a =>
    obtain ⟨hc, ha⟩ := List.forall_mem_append.1 h
    exact .ifThen (c.alike_relabel hline hflags hs.1 hc) (a.alike_relabel hline hflags hs.2.2 ha)
  | ifElse c a b =>
    obtain ⟨hc, hab⟩ := List.forall_mem_append.1 h
    obtain ⟨ha, hb⟩ := List.forall_mem_append.1 hab
    exact .ifElse (c.alike_relabel hline hflags hs.1 hc) (a.alike_relabel hline hflags hs.2.1.2 ha)
      (b.alike_relabel hline hflags hs.2.2.2 hb)
  | whileLoop c body =>
    obtain ⟨hc, hbody⟩ := List.forall_mem_append.1 h
    exact .whileLoop (c.alike_relabel hline hflags hs.1 hc)
      (body.alike_relabel hline hflags hs.2.2 hbody)
  | funDecl decl =>
    exact .funDecl (by rw [hhead]; exact r.keeps_false decl.name)
      (decl.alike_relabel hline hflags hs h)
  | returnWith keyword value => exact .returnWith (Expr.optionAlike_relabel hline hflags value hs h)
  | classDecl decl =>
    obtain ⟨name, superclass, methods, statics⟩ := decl
    obtain ⟨-, hsuper, hmethods, hstatics⟩ := hs
    obtain ⟨hs, hmembers⟩ := List.forall_mem_append.1 h
    obtain ⟨hss, hms⟩ := List.forall_mem_append.1 hmembers
    have hclass := flags_eq_false superclass hflags
    exact .classDecl (by rw [hhead]; exact r.keeps_false name) (name.alike_relabel hline)
      (Expr.optionAlike_relabel hline hflags superclass hsuper.option hs)
      (FunctionDecls.alike_relabel hline (List.forall_mem_cons.2 ⟨rfl, hclass⟩) methods hmethods
        fun f hf => ⟨_, _, fun v hv => hms v (FunctionDecls.mem_methodVisits.2 ⟨f, hf, hv⟩)⟩)
      (FunctionDecls.alike_relabel hline hclass statics hstatics
        fun f hf => ⟨_, _, fun v hv => hss v (FunctionDecls.mem_staticVisits.2 ⟨f, hf, hv⟩)⟩)

/-- A program is like itself with other numbers. -/
theorem Stmts.alike_relabel {flags : List Bool} {cls : ClassRole} {layers : List Layer}
    (hline : ∀ n, r.line n (q.line n)) (hflags : ∀ b ∈ flags, b = false)
    (ss : List Stmt) (hss : Stmts.WellFormed ss)
    (h : ∀ v ∈ Stmts.visits cls layers ss, ∃ d, r.same v.id (v.id + q.shift) d) :
    Stmts.Alike r flags ss (Stmts.relabel q ss) := by
  cases ss with
  | nil => exact .nil
  | cons s ss =>
    obtain ⟨hs, hrest⟩ := List.forall_mem_append.1 h
    exact .cons (s.alike_relabel hline hflags hss.1 hs)
      (Stmts.alike_relabel hline hflags ss hss.2 hrest)

/-- A function is like itself with other numbers. -/
theorem FunctionDecl.alike_relabel {flags : List Bool} {cls : ClassRole} {layers : List Layer}
    (hline : ∀ n, r.line n (q.line n)) (hflags : ∀ b ∈ flags, b = false)
    (f : FunctionDecl) (hf : f.WellFormed)
    (h : ∀ v ∈ f.visits cls layers, ∃ d, r.same v.id (v.id + q.shift) d) :
    f.Alike r flags (f.relabel q) := by
  obtain ⟨name, params, body⟩ := f
  have hbody := Stmts.alike_relabel hline (List.forall_mem_cons.2 ⟨rfl, hflags⟩) body hf.2.2 h
  exact .mk false rfl (List.forall₂_map_right_iff.2
    (List.forall₂_same.2 fun p _ => p.keeps_unflagged rfl)) hbody

theorem FunctionDecls.alike_relabel {flags : List Bool} (hline : ∀ n, r.line n (q.line n))
    (hflags : ∀ b ∈ flags, b = false) (fs : List FunctionDecl) (hfs : FunctionDecls.WellFormed fs)
    (h : ∀ f ∈ fs, ∃ cls layers, ∀ v ∈ f.visits cls layers, ∃ d, r.same v.id (v.id + q.shift) d) :
    FunctionDecls.Alike r flags fs (FunctionDecls.relabel q fs) := by
  cases fs with
  | nil => exact .nil
  | cons f fs =>
    obtain ⟨⟨_, _, hf⟩, hrest⟩ := List.forall_mem_cons.1 h
    exact .cons (f.alike_relabel hline hflags hfs.1 hf)
      (FunctionDecls.alike_relabel hline hflags fs hfs.2 hrest)

end

/-- A function is like itself. -/
theorem FunctionDecl.alike_self {flags : List Bool} {cls : ClassRole} {layers : List Layer}
    (hline : ∀ n, r.line n n) (hflags : ∀ b ∈ flags, b = false) (f : FunctionDecl)
    (hf : f.WellFormed) (h : ∀ v ∈ f.visits cls layers, ∃ d, r.same v.id v.id d) :
    f.Alike r flags f := by
  have halike := f.alike_relabel (q := .move 0 0) hline hflags hf h
  rwa [f.relabel_zero] at halike

/-- A function without statements is like itself. -/
theorem FunctionDecl.alike_of_body_nil {flags : List Bool} {f : FunctionDecl} (h : f.body = []) :
    f.Alike r flags f := by
  obtain ⟨name, params, body⟩ := f
  obtain rfl : body = [] := h
  exact .mk false rfl (List.forall₂_same.2 fun p _ => p.keeps_unflagged rfl) .nil

end

end Lox
