import Lox.Proofs.Syntax.Tree
import Mathlib.Data.List.Basic

/-!
# Places in a program

A place in a program is a path: which part of the program, which part of that part, and so on. The
left operand of `??` stands in the tree twice. A place in one copy corresponds to the place with the
same path in the other copy, and places may correspond in several such operands, one inside the
other. The numbers of a part are unambiguous if a number is found at two places only where they
correspond. Parts that have been read one after the other have no number in common, and what is
made of them by a new node keeps its numbers unambiguous.
-/

namespace Lox

/-- A program or a part of it. -/
inductive Part where
  | program (body : List Stmt)
  | stmt (s : Stmt)
  | function (decl : FunctionDecl)
  | expr (e : Expr)

/-- The expressions that an expression is made of. -/
@[simp] def Expr.operands : Expr → List Expr
  | .literal _ | .var _ _ | .thisRef _ _ | .superRef _ _ _ => []
  | .grouping e | .unary _ e | .assign _ _ e | .get e _ => [e]
  | .binary l _ r | .logical l _ r => [l, r]
  | .conditional c a b => [c, a, b]
  | .call f _ es => f :: es
  | .set e _ v => [e, v]

/-- The parts that a statement is made of. -/
def Stmt.components : Stmt → List Part
  | .expression e | .print e => [.expr e]
  | .varDecl _ value | .returnWith _ value => value.toList.map .expr
  | .block body => body.map .stmt
  | .ifThen c a => [.expr c, .stmt a]
  | .ifElse c a b => [.expr c, .stmt a, .stmt b]
  | .whileLoop c body => [.expr c, .stmt body]
  | .funDecl decl => [.function decl]
  | .classDecl decl =>
    decl.superclass.toList.map .expr ++ (decl.methods.map .function ++ decl.statics.map .function)

/-- The number of an expression that refers to a variable. -/
def Expr.number? : Expr → Option NodeId
  | .var id _ | .assign id _ _ | .thisRef id _ | .superRef id _ _ => some id
  | _ => none

namespace Part

/-- The parts that a part is made of. -/
def children : Part → List Part
  | .program body => body.map .stmt
  | .stmt s => s.components
  | .function decl => decl.body.map .stmt
  | .expr e => e.operands.map .expr

/-- The number of a part that refers to a variable. -/
def number? : Part → Option NodeId
  | .expr e => e.number?
  | _ => none

/-- The part at a place, if there is such a place. -/
def at? : Part → List Nat → Option Part
  | part, [] => some part
  | part, i :: path => part.children[i]?.bind fun child => child.at? path

/-- The number at a place, if there is a node there that refers to a variable. -/
def numberAt? (part : Part) (path : List Nat) : Option NodeId := (part.at? path).bind number?

/-- Two places are the same except for the copies of left operands of `??` that they are in. -/
inductive Corresponds : Part → List Nat → List Nat → Prop
  | here (part : Part) : Corresponds part [] []
  | child {part child : Part} {i : Nat} {p q : List Nat} (hchild : part.children[i]? = some child)
      (h : Corresponds child p q) : Corresponds part (i :: p) (i :: q)
  | comparedTaken {left fallback : Expr} {line : Nat} {p q : List Nat}
      (h : Corresponds (.expr left) p q) :
      Corresponds (.expr (.coalesce left line fallback)) (0 :: 0 :: p) (1 :: q)
  | takenCompared {left fallback : Expr} {line : Nat} {p q : List Nat}
      (h : Corresponds (.expr left) p q) :
      Corresponds (.expr (.coalesce left line fallback)) (1 :: p) (0 :: 0 :: q)

/-- A number is found at two places only if they correspond. -/
def Unambiguous (part : Part) : Prop :=
  ∀ p q id, part.numberAt? p = some id → part.numberAt? q = some id → part.Corresponds p q

def Has (part : Part) (id : Nat) : Prop := ∃ path, part.numberAt? path = some id

def Apart (part part' : Part) : Prop := ∀ id, part.Has id → ¬ part'.Has id

variable {part child part' : Part} {i j id : Nat} {p q : List Nat}

theorem Apart.symm (h : part.Apart part') : part'.Apart part := fun id h₁ h₂ => h id h₂ h₁

/-! ## Places -/

theorem at?_cons (hchild : part.children[i]? = some child) (path : List Nat) :
    part.at? (i :: path) = child.at? path := by
  rw [at?, hchild, Option.bind_some]

theorem numberAt?_cons (hchild : part.children[i]? = some child) (path : List Nat) :
    part.numberAt? (i :: path) = child.numberAt? path := by
  rw [numberAt?, at?_cons hchild, numberAt?]

theorem exists_child_of_numberAt? (h : part.numberAt? (i :: p) = some id) :
    ∃ child, part.children[i]? = some child ∧ child.numberAt? p = some id := by
  rw [numberAt?, at?] at h
  cases hchild : part.children[i]? with
  | none =>
    rw [hchild] at h
    cases h
  | some child =>
    rw [hchild] at h
    exact ⟨child, rfl, h⟩

/-- A number of a part is its own or that of a part in it. -/
theorem has_iff : part.Has id ↔ part.number? = some id ∨ ∃ child ∈ part.children, child.Has id := by
  constructor
  · rintro ⟨path, h⟩
    cases path with
    | nil => exact .inl h
    | cons i path =>
      obtain ⟨child, hchild, hnumber⟩ := exists_child_of_numberAt? h
      exact .inr ⟨child, List.mem_of_getElem? hchild, path, hnumber⟩
  · rintro (h | ⟨child, hmem, path, h⟩)
    · exact ⟨[], h⟩
    · obtain ⟨i, hi⟩ := List.mem_iff_getElem?.1 hmem
      exact ⟨i :: path, (numberAt?_cons hi path).trans h⟩

/-- What stands at corresponding places is the same. -/
theorem Corresponds.at?_eq (h : part.Corresponds p q) : part.at? p = part.at? q := by
  induction h with
  | here part => rfl
  | child hchild _ ih => rw [at?_cons hchild, at?_cons hchild, ih]
  | comparedTaken _ ih => exact ih
  | takenCompared _ ih => exact ih

theorem Corresponds.of_cons (h : part.Corresponds (i :: p) (i :: q))
    (hchild : part.children[i]? = some child) : child.Corresponds p q := by
  cases h with
  | child hchild' h =>
    cases hchild.symm.trans hchild'
    exact h

/-- Outside of expressions, corresponding places are in the same part. -/
theorem Corresponds.index_eq (h : part.Corresponds (i :: p) (j :: q)) (hpart : ∀ e, part ≠ .expr e) :
    i = j := by
  cases h with
  | child => rfl
  | comparedTaken => exact absurd rfl (hpart _)
  | takenCompared => exact absurd rfl (hpart _)

/-! ## Numbers that are found once -/

theorem Unambiguous.of_mem (h : part.Unambiguous) (hmem : child ∈ part.children) :
    child.Unambiguous := by
  intro p q id hp hq
  obtain ⟨i, hi⟩ := List.mem_iff_getElem?.1 hmem
  exact (h (i :: p) (i :: q) id ((numberAt?_cons hi p).trans hp)
    ((numberAt?_cons hi q).trans hq)).of_cons hi

/-- Outside of expressions, the parts of a part have no number in common. -/
theorem Unambiguous.pairwise_apart (h : part.Unambiguous) (hpart : ∀ e, part ≠ .expr e) :
    part.children.Pairwise Apart := by
  rw [List.pairwise_iff_getElem]
  rintro i j hi hj hij id ⟨p, hp⟩ ⟨q, hq⟩
  have hp' : part.numberAt? (i :: p) = some id :=
    (numberAt?_cons (List.getElem?_eq_getElem hi) p).trans hp
  have hq' : part.numberAt? (j :: q) = some id :=
    (numberAt?_cons (List.getElem?_eq_getElem hj) q).trans hq
  exact absurd ((h _ _ _ hp' hq').index_eq hpart) (Nat.ne_of_lt hij)

theorem index_eq_of_pairwise {parts : List Part} (h : parts.Pairwise Apart)
    (hi : parts[i]? = some part) (hj : parts[j]? = some part') (hid : part.Has id)
    (hid' : part'.Has id) : i = j := by
  obtain ⟨hilt, rfl⟩ := List.getElem?_eq_some_iff.1 hi
  obtain ⟨hjlt, rfl⟩ := List.getElem?_eq_some_iff.1 hj
  rw [List.pairwise_iff_getElem] at h
  rcases Nat.lt_trichotomy i j with hij | hij | hij
  · exact absurd hid' (h i j hilt hjlt hij id hid)
  · exact hij
  · exact absurd hid (h j i hjlt hilt hij id hid')

/-- A node of parts that have no number in common with each other and with the node. -/
theorem unambiguous_of_children (hchildren : ∀ child ∈ part.children, child.Unambiguous)
    (hapart : part.children.Pairwise Apart)
    (hown : ∀ id, part.number? = some id → ∀ child ∈ part.children, ¬ child.Has id) :
    part.Unambiguous := by
  intro p q id hp hq
  cases p with
  | nil =>
    cases q with
    | nil => exact .here part
    | cons j q =>
      obtain ⟨child, hchild, hnumber⟩ := exists_child_of_numberAt? hq
      exact absurd ⟨q, hnumber⟩ (hown id hp child (List.mem_of_getElem? hchild))
  | cons i p =>
    obtain ⟨child, hi, hp⟩ := exists_child_of_numberAt? hp
    cases q with
    | nil => exact absurd ⟨p, hp⟩ (hown id hq child (List.mem_of_getElem? hi))
    | cons j q =>
      obtain ⟨child', hj, hq⟩ := exists_child_of_numberAt? hq
      obtain rfl := index_eq_of_pairwise hapart hi hj ⟨p, hp⟩ ⟨q, hq⟩
      cases hi.symm.trans hj
      exact .child hi (hchildren child (List.mem_of_getElem? hi) p q id hp hq)

/-- The places in `left ?? fallback` that have a number are in one of the copies of the left operand
or in the fallback. -/
theorem numberAt?_coalesce {left fallback : Expr} {line : Nat}
    (h : (Part.expr (.coalesce left line fallback)).numberAt? p = some id) :
    (∃ r, p = 0 :: 0 :: r ∧ (Part.expr left).numberAt? r = some id) ∨
      (∃ r, p = 1 :: r ∧ (Part.expr left).numberAt? r = some id) ∨
      ∃ r, p = 2 :: r ∧ (Part.expr fallback).numberAt? r = some id := by
  match p, h with
  | 0 :: 0 :: r, h => exact .inl ⟨r, rfl, h⟩
  | 1 :: r, h => exact .inr (.inl ⟨r, rfl, h⟩)
  | 2 :: r, h => exact .inr (.inr ⟨r, rfl, h⟩)
  | [], h => cases h
  | [0], h => cases h
  | [0, 1], h => cases h
  | 0 :: 1 :: _ :: _, h => cases h
  | 0 :: (_ + 2) :: _, h => cases h
  | (_ + 3) :: _, h => cases h

theorem has_coalesce_iff {left fallback : Expr} {line : Nat} :
    (Part.expr (.coalesce left line fallback)).Has id ↔
      (Part.expr left).Has id ∨ (Part.expr fallback).Has id := by
  constructor
  · rintro ⟨p, hp⟩
    rcases numberAt?_coalesce hp with ⟨r, -, h⟩ | ⟨r, -, h⟩ | ⟨r, -, h⟩
    · exact .inl ⟨r, h⟩
    · exact .inl ⟨r, h⟩
    · exact .inr ⟨r, h⟩
  · rintro (⟨r, h⟩ | ⟨r, h⟩)
    · exact ⟨1 :: r, h⟩
    · exact ⟨2 :: r, h⟩

/-- The copies of a left operand have the same numbers at corresponding places. -/
theorem unambiguous_coalesce {left fallback : Expr} {line : Nat}
    (hleft : (Part.expr left).Unambiguous) (hfallback : (Part.expr fallback).Unambiguous)
    (hapart : (Part.expr left).Apart (.expr fallback)) :
    (Part.expr (.coalesce left line fallback)).Unambiguous := by
  intro p q id hp hq
  have hcompared : (Part.expr (.coalesce left line fallback)).children[0]? = some (.expr
    (.binary left (Token.ofSymbol .bangEqual "!=" line) (.literal .nil))) := rfl
  rcases numberAt?_coalesce hp with ⟨r, rfl, hr⟩ | ⟨r, rfl, hr⟩ | ⟨r, rfl, hr⟩ <;>
    rcases numberAt?_coalesce hq with ⟨t, rfl, ht⟩ | ⟨t, rfl, ht⟩ | ⟨t, rfl, ht⟩
  · exact .child hcompared (.child (i := 0) rfl (hleft r t id hr ht))
  · exact .comparedTaken (hleft r t id hr ht)
  · exact absurd ⟨t, ht⟩ (hapart id ⟨r, hr⟩)
  · exact .takenCompared (hleft r t id hr ht)
  · exact .child (i := 1) rfl (hleft r t id hr ht)
  · exact absurd ⟨t, ht⟩ (hapart id ⟨r, hr⟩)
  · exact absurd ⟨r, hr⟩ (hapart id ⟨t, ht⟩)
  · exact absurd ⟨r, hr⟩ (hapart id ⟨t, ht⟩)
  · exact .child (i := 2) rfl (hfallback r t id hr ht)

end Part

/-! ## Tokens that fit their nodes -/

variable {K : Token → Prop}

/-- The tokens that an expression has of its own are among the given ones, as far as the names go,
and fit it. -/
def Expr.Fits (K : Token → Prop) : Expr → Prop
  | .unary op _ => op.is .bang = true ∨ op.is .minus = true
  | .binary _ op _ => op.IsBinaryOperator
  | .var _ name | .assign _ name _ => K name ∧ name.is .identifier = true
  | .thisRef _ keyword => K keyword ∧ keyword.is .kwThis = true
  | .superRef _ keyword _ => K keyword ∧ keyword.is .kwSuper = true
  | _ => True

/-- The tokens that a statement has of its own are among the given ones and fit it, its branches
declare nothing, and a superclass is a name. -/
def Stmt.Fits (K : Token → Prop) : Stmt → Prop
  | .varDecl name _ => K name ∧ name.is .identifier = true
  | .ifThen _ a => a.declared? = none
  | .ifElse _ a b => a.declared? = none ∧ b.declared? = none
  | .whileLoop _ body => body.declared? = none
  | .returnWith keyword _ => K keyword
  | .classDecl decl => (K decl.name ∧ decl.name.is .identifier = true) ∧
      ∀ e ∈ decl.superclass, ∃ id name, e = .var id name
  | _ => True

namespace Part

/-- The tokens that a part has of its own are among the given ones and fit it. -/
def Fits (K : Token → Prop) : Part → Prop
  | .program _ => True
  | .stmt s => s.Fits K
  | .function decl => ∀ t ∈ decl.name :: decl.params, K t ∧ t.is .identifier = true
  | .expr e => e.Fits K

/-- The tokens at all places fit. -/
def Formed (K : Token → Prop) (part : Part) : Prop := ∀ path q, part.at? path = some q → q.Fits K

variable {part child : Part}

theorem formed_iff :
    part.Formed K ↔ part.Fits K ∧ ∀ child ∈ part.children, child.Formed K := by
  constructor
  · refine fun h => ⟨h [] part rfl, fun child hchild path q hq => ?_⟩
    obtain ⟨i, hi⟩ := List.mem_iff_getElem?.1 hchild
    exact h (i :: path) q ((at?_cons hi path).trans hq)
  · rintro ⟨hfits, hchildren⟩ path q hq
    cases path with
    | nil =>
      obtain rfl := Option.some.inj hq
      exact hfits
    | cons i path =>
      rw [at?] at hq
      obtain ⟨child, hchild, hq⟩ := Option.bind_eq_some_iff.1 hq
      exact hchildren child (List.mem_of_getElem? hchild) path q hq

theorem Formed.fits (h : part.Formed K) : part.Fits K := (formed_iff.1 h).1

theorem Formed.of_mem (h : part.Formed K) (hchild : child ∈ part.children) : child.Formed K :=
  (formed_iff.1 h).2 child hchild

end Part

mutual

theorem Expr.wellFormed_of_formed (e : Expr) (h : (Part.expr e).Formed Token.Spelled) :
    e.WellFormed := by
  have hfits := h.fits
  match e with
  | .literal _ => trivial
  | .grouping e | .get e _ => exact e.wellFormed_of_formed (h.of_mem (.head _))
  | .unary _ e => exact ⟨hfits, e.wellFormed_of_formed (h.of_mem (.head _))⟩
  | .binary l _ r =>
    exact ⟨hfits, l.wellFormed_of_formed (h.of_mem (.head _)),
      r.wellFormed_of_formed (h.of_mem (.tail _ (.head _)))⟩
  | .logical l _ r | .set l _ r =>
    exact ⟨l.wellFormed_of_formed (h.of_mem (.head _)),
      r.wellFormed_of_formed (h.of_mem (.tail _ (.head _)))⟩
  | .conditional c a b =>
    exact ⟨c.wellFormed_of_formed (h.of_mem (.head _)),
      a.wellFormed_of_formed (h.of_mem (.tail _ (.head _))),
      b.wellFormed_of_formed (h.of_mem (.tail _ (.tail _ (.head _))))⟩
  | .var _ name => exact hfits.1.name hfits.2
  | .assign _ name e => exact ⟨hfits.1.name hfits.2, e.wellFormed_of_formed (h.of_mem (.head _))⟩
  | .call f _ es =>
    exact ⟨f.wellFormed_of_formed (h.of_mem (.head _)),
      Exprs.wellFormed_of_formed es fun e he => h.of_mem (.tail _ (List.mem_map_of_mem he))⟩
  | .thisRef _ keyword => exact hfits.1.this hfits.2
  | .superRef _ keyword _ => exact hfits.1.super hfits.2

theorem Exprs.wellFormed_of_formed (es : List Expr)
    (h : ∀ e ∈ es, (Part.expr e).Formed Token.Spelled) : Exprs.WellFormed es := by
  match es with
  | [] => trivial
  | e :: es =>
    obtain ⟨he, hes⟩ := List.forall_mem_cons.1 h
    exact ⟨e.wellFormed_of_formed he, Exprs.wellFormed_of_formed es hes⟩

end

theorem Expr.optionWellFormed_of_formed {o : Option Expr}
    (h : ∀ part ∈ o.toList.map Part.expr, part.Formed Token.Spelled) :
    Expr.OptionWellFormed o := by
  cases o with
  | none => trivial
  | some e => exact e.wellFormed_of_formed (h _ (.head _))

mutual

theorem Stmt.wellFormed_of_formed (s : Stmt) (h : (Part.stmt s).Formed Token.Spelled) :
    s.WellFormed := by
  have hfits := h.fits
  match s with
  | .expression e | .print e => exact e.wellFormed_of_formed (h.of_mem (.head _))
  | .varDecl name value =>
    exact ⟨hfits.1.name hfits.2, Expr.optionWellFormed_of_formed fun _ hpart => h.of_mem hpart⟩
  | .returnWith _ value => exact Expr.optionWellFormed_of_formed fun _ hpart => h.of_mem hpart
  | .block body =>
    exact Stmts.wellFormed_of_formed body fun s hs => h.of_mem (List.mem_map_of_mem hs)
  | .ifThen c a | .whileLoop c a =>
    exact ⟨c.wellFormed_of_formed (h.of_mem (.head _)), hfits,
      a.wellFormed_of_formed (h.of_mem (.tail _ (.head _)))⟩
  | .ifElse c a b =>
    exact ⟨c.wellFormed_of_formed (h.of_mem (.head _)),
      ⟨hfits.1, a.wellFormed_of_formed (h.of_mem (.tail _ (.head _)))⟩, hfits.2,
      b.wellFormed_of_formed (h.of_mem (.tail _ (.tail _ (.head _))))⟩
  | .funDecl decl => exact decl.wellFormed_of_formed (h.of_mem (.head _))
  | .classDecl ⟨name, superclass, methods, statics⟩ =>
    refine ⟨hfits.1.1.name hfits.1.2, ?_,
      FunctionDecls.wellFormed_of_formed methods fun f hf => h.of_mem ?_,
      FunctionDecls.wellFormed_of_formed statics fun f hf => h.of_mem ?_⟩
    · cases superclass with
      | none => trivial
      | some e =>
        obtain ⟨id, name, rfl⟩ := hfits.2 e rfl
        exact (Expr.var id name).wellFormed_of_formed (h.of_mem (.head _))
    · simp [Part.children, Stmt.components, hf]
    · simp [Part.children, Stmt.components, hf]

theorem Stmts.wellFormed_of_formed (ss : List Stmt)
    (h : ∀ s ∈ ss, (Part.stmt s).Formed Token.Spelled) : Stmts.WellFormed ss := by
  match ss with
  | [] => trivial
  | s :: ss =>
    obtain ⟨hs, hss⟩ := List.forall_mem_cons.1 h
    exact ⟨s.wellFormed_of_formed hs, Stmts.wellFormed_of_formed ss hss⟩

theorem FunctionDecl.wellFormed_of_formed (f : FunctionDecl)
    (h : (Part.function f).Formed Token.Spelled) : f.WellFormed := by
  match f with
  | ⟨name, params, body⟩ =>
    have hnames : ∀ t ∈ name :: params, t.IsName := fun t ht => (h.fits t ht).1.name (h.fits t ht).2
    exact ⟨hnames name List.mem_cons_self, fun p hp => hnames p (List.mem_cons_of_mem _ hp),
      Stmts.wellFormed_of_formed body fun s hs => h.of_mem (List.mem_map_of_mem hs)⟩

theorem FunctionDecls.wellFormed_of_formed (fs : List FunctionDecl)
    (h : ∀ f ∈ fs, (Part.function f).Formed Token.Spelled) : FunctionDecls.WellFormed fs := by
  match fs with
  | [] => trivial
  | f :: fs =>
    obtain ⟨hf, hfs⟩ := List.forall_mem_cons.1 h
    exact ⟨f.wellFormed_of_formed hf, FunctionDecls.wellFormed_of_formed fs hfs⟩

end

/-! ## Parts one after the other -/

/-- The numbers of some parts are from `n` on up to `k`. They are unambiguous, and no two of the
parts have one in common. The tokens in the parts fit. -/
structure Parts.Spread (K : Token → Prop) (n : Nat) (parts : List Part) (k : Nat) : Prop where
  le : n ≤ k
  bounds : ∀ part ∈ parts, ∀ id : Nat, part.Has id → n ≤ id ∧ id < k
  unambiguous : ∀ part ∈ parts, part.Unambiguous
  apart : parts.Pairwise Part.Apart
  formed : ∀ part ∈ parts, part.Formed K

namespace Parts.Spread

variable {n j k : Nat} {parts parts' : List Part} {part inner : Part}

theorem nil (h : n ≤ k) : Spread K n [] k := ⟨h, by simp, by simp, .nil, by simp⟩

theorem append (h : Spread K n parts j) (h' : Spread K j parts' k) :
    Spread K n (parts ++ parts') k where
  le := Nat.le_trans h.le h'.le
  bounds part hpart id hid := by
    have hj := h.le
    have hk := h'.le
    rcases List.mem_append.1 hpart with hpart | hpart
    · have := h.bounds part hpart id hid
      omega
    · have := h'.bounds part hpart id hid
      omega
  unambiguous := List.forall_mem_append.2 ⟨h.unambiguous, h'.unambiguous⟩
  apart := by
    refine List.pairwise_append.2 ⟨h.apart, h'.apart, fun part hpart part' hpart' id hid hid' => ?_⟩
    have := h.bounds part hpart id hid
    have := h'.bounds part' hpart' id hid'
    omega
  formed := List.forall_mem_append.2 ⟨h.formed, h'.formed⟩

theorem sublist (h : Spread K n parts k) (hsub : parts'.Sublist parts) : Spread K n parts' k where
  le := h.le
  bounds part hpart := h.bounds part (hsub.subset hpart)
  unambiguous part hpart := h.unambiguous part (hsub.subset hpart)
  apart := h.apart.sublist hsub
  formed part hpart := h.formed part (hsub.subset hpart)

theorem perm (h : Spread K n parts k) (hperm : parts.Perm parts') : Spread K n parts' k where
  le := h.le
  bounds part hpart := h.bounds part (hperm.mem_iff.2 hpart)
  unambiguous part hpart := h.unambiguous part (hperm.mem_iff.2 hpart)
  apart := hperm.pairwise h.apart Part.Apart.symm
  formed part hpart := h.formed part (hperm.mem_iff.2 hpart)

/-- Replace the first parts by one that has no other numbers. -/
theorem replace (first : List Part) (h : Spread K n (first ++ parts) k) (hpart : part.Unambiguous)
    (hhas : ∀ id, part.Has id → ∃ part' ∈ first, part'.Has id) (hformed : part.Formed K) :
    Spread K n (part :: parts) k where
  le := h.le
  bounds := by
    refine List.forall_mem_cons.2 ⟨fun id hid => ?_, fun part' hpart' =>
      h.bounds part' (List.mem_append_right _ hpart')⟩
    obtain ⟨part', hmem, hid⟩ := hhas id hid
    exact h.bounds part' (List.mem_append_left _ hmem) id hid
  unambiguous := List.forall_mem_cons.2 ⟨hpart, fun part' hpart' =>
    h.unambiguous part' (List.mem_append_right _ hpart')⟩
  apart := by
    obtain ⟨-, hparts, hcross⟩ := List.pairwise_append.1 h.apart
    refine List.pairwise_cons.2 ⟨fun part' hpart' id hid => ?_, hparts⟩
    obtain ⟨part'', hmem, hid⟩ := hhas id hid
    exact hcross part'' hmem part' hpart' id hid
  formed := List.forall_mem_cons.2 ⟨hformed, fun part' hpart' =>
    h.formed part' (List.mem_append_right _ hpart')⟩

/-- What is made of the first parts fits if its own tokens do. -/
theorem formed_node (h : Spread K n (part.children ++ parts) k) (hfits : part.Fits K) :
    part.Formed K :=
  Part.formed_iff.2 ⟨hfits, fun child hchild => h.formed child (List.mem_append_left _ hchild)⟩

/-- A node without a number in the place of its parts. -/
theorem node (h : Spread K n (part.children ++ parts) k) (hnumber : part.number? = none)
    (hfits : part.Fits K) : Spread K n (part :: parts) k := by
  refine h.replace _ (Part.unambiguous_of_children ?_ (List.pairwise_append.1 h.apart).1 ?_) ?_
    (h.formed_node hfits)
  · exact fun child hchild => h.unambiguous child (List.mem_append_left _ hchild)
  · intro id hid
    rw [hnumber] at hid
    cases hid
  · intro id hid
    rw [Part.has_iff, hnumber] at hid
    exact hid.resolve_left nofun

/-- A node without a number made of all the parts. -/
theorem single (h : Spread K n part.children k) (hnumber : part.number? = none)
    (hfits : part.Fits K) : Spread K n [part] k := by
  rw [← List.append_nil part.children] at h
  exact h.node hnumber hfits

/-- A node with the next number in the place of its parts. -/
theorem numbered (h : Spread K n (part.children ++ parts) k) (hnumber : part.number? = some k)
    (hfits : part.Fits K) : Spread K n (part :: parts) (k + 1) := by
  have hbelow : ∀ child ∈ part.children ++ parts, ¬ child.Has k := fun child hchild hid => by
    have := h.bounds child hchild k hid
    omega
  have hpart : part.Unambiguous := by
    refine Part.unambiguous_of_children
      (fun child hchild => h.unambiguous child (List.mem_append_left _ hchild))
      (List.pairwise_append.1 h.apart).1 fun id hid child hchild => ?_
    cases hnumber.symm.trans hid
    exact hbelow child (List.mem_append_left _ hchild)
  have hhas : ∀ id, part.Has id → id = k ∨ ∃ child ∈ part.children, child.Has id := fun id hid => by
    rw [Part.has_iff, hnumber] at hid
    exact hid.imp_left fun h => (Option.some.inj h).symm
  obtain ⟨-, hparts, hcross⟩ := List.pairwise_append.1 h.apart
  have hle := h.le
  refine ⟨Nat.le_succ_of_le hle,
    List.forall_mem_cons.2 ⟨fun id hid => ?_, fun part' hpart' id hid => ?_⟩,
    List.forall_mem_cons.2 ⟨hpart, fun part' hpart' =>
      h.unambiguous part' (List.mem_append_right _ hpart')⟩,
    List.pairwise_cons.2 ⟨fun part' hpart' id hid hid' => ?_, hparts⟩,
    List.forall_mem_cons.2 ⟨h.formed_node hfits, fun part' hpart' =>
      h.formed part' (List.mem_append_right _ hpart')⟩⟩
  · rcases hhas id hid with rfl | ⟨child, hchild, hid⟩
    · omega
    · have := h.bounds child (List.mem_append_left _ hchild) id hid
      omega
  · have := h.bounds part' (List.mem_append_right _ hpart') id hid
    omega
  · rcases hhas id hid with rfl | ⟨child, hchild, hid⟩
    · exact hbelow part' (List.mem_append_right _ hpart') hid'
    · exact hcross child hchild part' hpart' id hid hid'

/-- `left ?? fallback` in the place of its operands. -/
theorem coalesce {left fallback : Expr} {line : Nat}
    (h : Spread K n (.expr left :: .expr fallback :: parts) k) :
    Spread K n (.expr (.coalesce left line fallback) :: parts) k := by
  have hapart : (Part.expr left).Apart (.expr fallback) :=
    (List.pairwise_cons.1 h.apart).1 _ (by simp)
  have hleft : (Part.expr left).Formed K := h.formed _ (by simp)
  have hnil : (Part.expr (.literal .nil)).Formed K :=
    Part.formed_iff.2 ⟨trivial, List.forall_mem_nil _⟩
  have hcompared : (Part.expr (.binary left (Token.ofSymbol .bangEqual "!=" line)
      (.literal .nil))).Formed K := by
    refine Part.formed_iff.2 ⟨rfl, ?_⟩
    simpa [Part.children] using ⟨hleft, hnil⟩
  refine h.replace [.expr left, .expr fallback]
    (Part.unambiguous_coalesce (h.unambiguous _ (by simp)) (h.unambiguous _ (by simp)) hapart)
    (fun id hid => ?_) (Part.formed_iff.2 ⟨trivial, ?_⟩)
  · simpa using Part.has_coalesce_iff.1 hid
  · simpa [Part.children, Expr.coalesce] using ⟨hcompared, hleft, h.formed _ (by simp)⟩

/-- A part in the place of the node that it is a part of. -/
theorem inside (h : Spread K n (part :: parts) k) (hinner : inner ∈ part.children) :
    Spread K n (inner :: parts) k := by
  refine h.replace [part] ((h.unambiguous part (by simp)).of_mem hinner) (fun id hid => ?_)
    ((h.formed part (by simp)).of_mem hinner)
  exact ⟨part, by simp, Part.has_iff.2 (.inr ⟨inner, hinner, hid⟩)⟩

end Parts.Spread

end Lox
