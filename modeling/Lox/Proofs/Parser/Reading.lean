import Lox.Syntax.Parser.Statement

/-!
# Reading without a report

A parser reads a result from one cursor to another if it reports nothing on the way. What a
parser reads is then a relation, and each combinator of parsers is a way to combine such
relations.
-/

namespace Lox

variable {t : Token} {s : Symbol} {c : Cursor} {fault : SyntaxFault} {o : Option Token}
  {rest : List Token} {fresh : NodeId}

namespace Token

theorem is_iff : t.is s = true ↔ t.kind = .symbol s := Kind.is_iff

theorem is_of_kind (h : t.kind = .symbol s) : t.is s = true :=
  is_iff.2 h

/-- A token is not two symbols at once. -/
theorem is_eq_false {s' : Symbol} (h : t.is s = true) (hne : s ≠ s') : t.is s' = false := by
  rw [is_iff] at h
  simp [is, h, hne]

end Token

namespace Parser

variable {α β : Type}

/-- `p` reads `a` between two cursors and reports nothing. -/
def Reads (p : Parser α) (c : Cursor) (a : α) (c' : Cursor) : Prop := p c = ⟨some a, c', []⟩

/-! ## Sequencing -/

@[simp] theorem reads_pure {a b : α} {c c' : Cursor} :
    (pure a : Parser α).Reads c b c' ↔ b = a ∧ c' = c := by
  simp only [Reads, pure_apply, Reply.mk.injEq, Option.some.injEq, and_true]
  constructor
  · rintro ⟨rfl, rfl⟩
    exact ⟨rfl, rfl⟩
  · rintro ⟨rfl, rfl⟩
    exact ⟨rfl, rfl⟩

theorem reads_bind {p : Parser α} {f : α → Parser β} {c c'' : Cursor} {b : β} :
    (p >>= f).Reads c b c'' ↔ ∃ a c', p.Reads c a c' ∧ (f a).Reads c' b c'' := by
  constructor
  · intro h
    simp only [Reads, bind_apply] at h
    rcases hp : p c with ⟨_ | a, c', faults⟩
    · simp [hp] at h
    · simp only [hp, Reply.mk.injEq, List.append_eq_nil_iff] at h
      obtain ⟨hr, hc, hf, hf'⟩ := h
      subst hf
      refine ⟨a, c', hp, ?_⟩
      rw [Reads, ← hr, ← hc, ← hf']
  · rintro ⟨a, c', hp, hf⟩
    simp only [Reads] at hp hf
    simp [Reads, bind_apply, hp, hf]

theorem reads_map {p : Parser α} {g : α → β} {c c' : Cursor} {b : β} :
    (g <$> p).Reads c b c' ↔ ∃ a, p.Reads c a c' ∧ b = g a := by
  change (p >>= fun a => pure (g a)).Reads c b c' ↔ _
  rw [reads_bind]
  simp only [reads_pure]
  constructor
  · rintro ⟨a, _, hp, rfl, rfl⟩
    exact ⟨a, hp, rfl⟩
  · rintro ⟨a, hp, rfl⟩
    exact ⟨a, c', hp, rfl, rfl⟩

/-! ## Looking ahead -/

@[simp] theorem reads_check {b : Bool} {c' : Cursor} :
    (check s).Reads c b c' ↔ b = c.peek.is s ∧ c' = c := by
  simp [Reads, check, eq_comm]

@[simp] theorem reads_freshId {id : NodeId} {c' : Cursor} :
    freshId.Reads c id c' ↔ id = c.fresh ∧ c' = { c with fresh := c.fresh + 1 } := by
  simp [Reads, freshId, eq_comm]

/-! ## Reading a token -/

theorem reads_acceptIf {test : Token → Bool} {c' : Cursor}
    (h : (∃ t, o = some t ∧ test t = true ∧ c.rest = t :: c'.rest ∧ c'.fresh = c.fresh) ∨
      (o = none ∧ c' = c ∧ ∀ t ∈ c.rest.head?, test t = false)) : (acceptIf test).Reads c o c' := by
  obtain ⟨rest, fresh⟩ := c
  obtain ⟨rest', fresh'⟩ := c'
  rcases h with ⟨t, rfl, ht, rfl, rfl⟩ | ⟨rfl, h, hhead⟩
  · simp [Reads, acceptIf, ht]
  · obtain ⟨rfl, rfl⟩ := Cursor.mk.inj h
    cases rest' with
    | nil => rfl
    | cons t rest => simp [Reads, acceptIf, hhead t rfl]

theorem reads_accept {c' : Cursor}
    (h : (∃ t, o = some t ∧ t.is s = true ∧ c.rest = t :: c'.rest ∧ c'.fresh = c.fresh) ∨
      (o = none ∧ c' = c ∧ ∀ t ∈ c.rest.head?, t.is s = false)) : (accept s).Reads c o c' :=
  reads_acceptIf h

theorem reads_acceptAny {ss : List Symbol} {c' : Cursor}
    (h : (∃ t, o = some t ∧ ss.any t.is = true ∧ c.rest = t :: c'.rest ∧ c'.fresh = c.fresh) ∨
      (o = none ∧ c' = c ∧ ∀ t ∈ c.rest.head?, ss.any t.is = false)) :
    (acceptAny ss).Reads c o c' :=
  reads_acceptIf h

theorem reads_expect {what : String} {c' : Cursor}
    (h : t.is s = true ∧ c.rest = t :: c'.rest ∧ c'.fresh = c.fresh) :
    (expect s what).Reads c t c' :=
  reads_bind.2 ⟨some t, c', reads_accept (.inl ⟨t, rfl, h⟩), reads_pure.2 ⟨rfl, rfl⟩⟩

/-! ## Going on behind a fault -/

theorem Reads.recover {p : Parser α} {c c' : Cursor} {a : α} (h : p.Reads c a c') :
    (recover p).Reads c (some a) c' := by
  simp only [Reads] at h
  simp [Reads, Parser.recover, h]

/-! ## Repetition -/

/-- Items are read one after the other, the first of them with number `i`. -/
inductive ReadsItems (item : Nat → Parser (Option α)) : Nat → Cursor → List α → Cursor → Prop
  | nil {i : Nat} {c : Cursor} : ReadsItems item i c [] c
  | cons {i : Nat} {c c' c'' : Cursor} {a : α} {as : List α} :
      (item i).Reads c (some a) c' → ReadsItems item (i + 1) c' as c'' →
        ReadsItems item i c (a :: as) c''

theorem ReadsItems.snoc {item : Nat → Parser (Option α)} {i : Nat} {c c' c'' : Cursor} {a : α}
    {as : List α} (h : ReadsItems item i c as c')
    (ha : (item (i + as.length)).Reads c' (some a) c'') :
    ReadsItems item i c (as ++ [a]) c'' := by
  induction h with
  | nil => exact .cons ha .nil
  | cons hb _ ih => exact .cons hb (ih (by simpa [Nat.add_assoc, Nat.add_comm 1] using ha))

/-- Repetition ends where an item is missing, or where as many items have been read as there
are tokens in the budget. -/
theorem reads_manyUpTo {item : Nat → Parser (Option α)} {budget : List Token} {i : Nat}
    {c c' : Cursor} {as : List α} :
    (manyUpTo item budget i).Reads c as c' ↔
      ∃ c₁, ReadsItems item i c as c₁ ∧
        (as.length = budget.length ∧ c' = c₁ ∨
          as.length < budget.length ∧ (item (i + as.length)).Reads c₁ none c') := by
  induction budget generalizing i c as with
  | nil =>
    rw [manyUpTo, reads_pure]
    constructor
    · rintro ⟨rfl, rfl⟩
      exact ⟨c', .nil, .inl ⟨rfl, rfl⟩⟩
    · rintro ⟨c₁, h, ⟨hl, rfl⟩ | ⟨hl, -⟩⟩
      · obtain rfl := List.length_eq_zero_iff.1 hl
        cases h
        exact ⟨rfl, rfl⟩
      · simp at hl
  | cons t budget ih =>
    rw [manyUpTo, reads_bind]
    constructor
    · rintro ⟨o, c₁, ho, h⟩
      cases o with
      | none =>
        obtain ⟨rfl, rfl⟩ := reads_pure.1 h
        exact ⟨c, .nil, .inr ⟨by simp, by simpa using ho⟩⟩
      | some a =>
        obtain ⟨others, c₂, hm, hp⟩ := reads_bind.1 h
        obtain ⟨rfl, rfl⟩ := reads_pure.1 hp
        obtain ⟨c₃, hi, hend⟩ := ih.1 hm
        refine ⟨c₃, .cons ho hi, ?_⟩
        simpa [Nat.add_assoc, Nat.add_comm 1] using hend
    · rintro ⟨c₁, hi, hend⟩
      cases hi with
      | nil =>
        rcases hend with ⟨hl, -⟩ | ⟨-, hn⟩
        · simp at hl
        · exact ⟨none, c', by simpa using hn, reads_pure.2 ⟨rfl, rfl⟩⟩
      | @cons _ _ c₂ _ a as ha has =>
        refine ⟨some a, c₂, ha, reads_bind.2 ⟨as, c', ih.2 ⟨c₁, has, ?_⟩, reads_pure.2 ⟨rfl, rfl⟩⟩⟩
        simpa [Nat.add_assoc, Nat.add_comm 1] using hend

theorem reads_many {item : Nat → Parser (Option α)} {c c' : Cursor} {as : List α} :
    (many item).Reads c as c' ↔
      ∃ c₁, ReadsItems item 0 c as c₁ ∧
        (as.length = c.rest.length ∧ c' = c₁ ∨
          as.length < c.rest.length ∧ (item as.length).Reads c₁ none c') := by
  change (manyUpTo item c.rest 0).Reads c as c' ↔ _
  rw [reads_manyUpTo]
  simp

/-! ## Lists in parentheses -/

/-- The item with a number in a list with commas: a comma and then what `item` reads. -/
def commaItem (item : Nat → Parser α) (index : Nat) : Parser (Option α) := do
  match ← accept .comma with
  | none => pure none
  | some _ => some <$> item (index + 1)

theorem reads_commaItem_none {item : Nat → Parser α} {i : Nat}
    (h : ∀ t ∈ c.rest.head?, t.is .comma = false) : (commaItem item i).Reads c none c :=
  reads_bind.2 ⟨none, c, reads_accept (.inr ⟨rfl, rfl, h⟩), reads_pure.2 ⟨rfl, rfl⟩⟩

theorem reads_commaItem_some {item : Nat → Parser α} {i : Nat} {c c' : Cursor} {a : α}
    (h : ∃ t rest, t.is .comma = true ∧ c.rest = t :: rest ∧
      (item (i + 1)).Reads ⟨rest, c.fresh⟩ a c') : (commaItem item i).Reads c (some a) c' := by
  obtain ⟨t, rest, ht, hc, hi⟩ := h
  exact reads_bind.2 ⟨some t, ⟨rest, c.fresh⟩, reads_accept (.inl ⟨t, rfl, ht, hc, rfl⟩),
    reads_map.2 ⟨a, hi, rfl⟩⟩

theorem reads_commaList {item : Nat → Parser α} {c c' : Cursor} {as : List α}
    (h : (c.peek.is .rightParen = true ∧ as = [] ∧ c' = c) ∨
      (c.peek.is .rightParen = false ∧ ∃ a others c₁, as = a :: others ∧
        (item 0).Reads c a c₁ ∧ (many (commaItem item)).Reads c₁ others c')) :
    (commaList item).Reads c as c' := by
  refine reads_bind.2 ⟨_, c, reads_check.2 ⟨rfl, rfl⟩, ?_⟩
  rcases h with ⟨hp, rfl, rfl⟩ | ⟨hp, a, others, c₁, rfl, ha, hm⟩
  · rw [hp]
    exact reads_pure.2 ⟨rfl, rfl⟩
  · rw [hp]
    exact reads_bind.2 ⟨a, c₁, ha, reads_bind.2 ⟨others, c', hm, reads_pure.2 ⟨rfl, rfl⟩⟩⟩

theorem reads_limited {fault : SyntaxFault} {item : Parser α} {i : Nat} {c c' : Cursor} {a : α}
    (h : i < maxArity ∧ item.Reads c a c') : (limited fault item i).Reads c a c' := by
  rw [limited]
  simpa [Nat.not_le.2 h.1] using h.2

/-! ## Operands -/

section Operand

variable {expr : Parser Expr}

/-- The expression that is a single token, and the next number behind it. -/
def leaf? (t : Token) (fresh : NodeId) : Option (Expr × NodeId) :=
  match t.kind with
  | .number x => some (.literal (.number x.toFloat), fresh)
  | .string text => some (.literal (.string text), fresh)
  | .symbol .kwFalse => some (.literal (.bool false), fresh)
  | .symbol .kwTrue => some (.literal (.bool true), fresh)
  | .symbol .kwNil => some (.literal .nil, fresh)
  | .symbol .kwThis => some (.thisRef fresh t, fresh + 1)
  | .symbol .identifier => some (.var fresh t, fresh + 1)
  | _ => none

theorem primary_leaf {fresh' : NodeId} {e : Expr} (h : leaf? t fresh = some (e, fresh')) :
    primary expr ⟨t :: rest, fresh⟩ = ⟨some e, ⟨rest, fresh'⟩, []⟩ := by
  unfold leaf? at h
  split at h <;> simp only [Option.some.injEq, Prod.mk.injEq, reduceCtorEq] at h
  all_goals
    obtain ⟨rfl, rfl⟩ := h
    simp [primary, bind_apply, look, Cursor.peek, expect, accept, acceptIf, Token.is, freshId, *]

theorem primary_super (h : t.is .kwSuper = true) : primary expr ⟨t :: rest, fresh⟩ =
      (do
        let _ ← expect .dot "'.' after 'super'"
        let method ← expect .identifier "superclass method name"
        pure (.superRef (← freshId) t method) : Parser Expr) ⟨rest, fresh⟩ := by
  have hk := Token.is_iff.1 h
  simp [primary, bind_apply, look, Cursor.peek, expect, accept, acceptIf, Token.is, hk]

theorem primary_paren (h : t.is .leftParen = true) : primary expr ⟨t :: rest, fresh⟩ =
      (do
        let inner ← expr
        let _ ← expect .rightParen "')' after expression"
        pure (.grouping inner) : Parser Expr) ⟨rest, fresh⟩ := by
  have hk := Token.is_iff.1 h
  simp [primary, bind_apply, look, Cursor.peek, accept, acceptIf, Token.is, hk]

theorem primary_reject
    (h : ∀ t ∈ c.rest.head?, leaf? t c.fresh = none ∧ t.is .kwSuper = false ∧
      t.is .leftParen = false) :
    primary expr c = (reject (.expected "expression") : Parser Expr) c := by
  obtain ⟨rest, fresh⟩ := c
  cases rest with
  | nil => rfl
  | cons t rest =>
    obtain ⟨hl, hs, hp⟩ := h t rfl
    obtain ⟨k, lexeme, line⟩ := t
    cases k with
    | number x => simp [leaf?] at hl
    | string text => simp [leaf?] at hl
    | symbol s => cases s <;> first | rfl | simp [leaf?, Token.is] at hl hs hp

end Operand

end Parser
end Lox
