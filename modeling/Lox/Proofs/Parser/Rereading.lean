import Lox.Proofs.Parser.Rules
import Lox.Proofs.Syntax.FirstTokens
import Lox.Proofs.Syntax.Linearization

/-!
# What was written is read again

What a tree is written as is read as the tree and without a report, if what follows does not
continue it. The nodes have numbers of their own then, and the tokens that the tree does not keep
do not matter.

Each level of expressions reads what is on it or on a tighter level: the left operands of the
operators of a level are read one after the other, and so are calls and properties. A statement
that ends with a conditional without an `else` is read if no `else` follows.

## Main definitions

* `Parser.Yields` — a parser reads tokens as it should.
* `Parser.yields_program` — a written program is read again.
-/

namespace Lox

/-! ## What follows -/

section

variable {ss ss' : List Symbol} {t : Token} {s : Symbol} {w r : List Token}

/-- The tokens `r` do not start with one of the symbols `ss`. -/
def Parser.Blocked (ss : List Symbol) (r : List Token) : Prop := ∀ t ∈ r.head?, ss.any t.is = false

theorem Parser.Blocked.mono (h : Parser.Blocked ss r) (hs : ss' ⊆ ss) : Parser.Blocked ss' r := by
  intro t ht
  have h := h t ht
  rw [List.any_eq_false] at h ⊢
  exact fun s hs' => h s (hs hs')

theorem StartsWith.blocked (h : StartsWith ss' w) (hs : ∀ s ∈ ss, s ∉ ss') (r : List Token) :
    Parser.Blocked ss (w ++ r) := by
  obtain ⟨t, v, rfl, ht⟩ := h
  rintro _ ⟨⟩
  rw [List.any_eq_false]
  exact fun s hs' h => hs s hs' (ht s h)

theorem StartsWith.peek (h : StartsWith ss w) (hs : s ∉ ss) (r : List Token) (i : NodeId) :
    (Cursor.peek ⟨w ++ r, i⟩).is s = false := by
  obtain ⟨t, v, rfl, ht⟩ := h
  exact Bool.eq_false_iff.2 fun h => hs (ht s h)

theorem Parser.blocked_cons (h : t.is s = true) (hs : s ∉ ss) : Parser.Blocked ss (t :: r) := by
  have hstart : StartsWith [s] [t] := startsWith_cons h (List.mem_singleton_self _)
  exact hstart.blocked (fun s' hs' h => hs (List.mem_singleton.1 h ▸ hs')) r

theorem Parser.Blocked.not_is (h : Parser.Blocked ss r) (hs : s ∈ ss) :
    ∀ t ∈ r.head?, t.is s = false := by
  intro t ht
  have := h t ht
  rw [List.any_eq_false] at this
  simpa using this s hs

end

theorem InTurn.blocked {α : Type} {R : α → List Token → Prop} {xs : List α} {w r : List Token}
    {ss firsts : List Symbol} (hw : InTurn R xs w) (hstart : ∀ x u, R x u → StartsWith firsts u)
    (hs : ∀ s ∈ ss, s ∉ firsts) (hr : Parser.Blocked ss r) : Parser.Blocked ss (w ++ r) := by
  cases hw with
  | nil => exact hr
  | cons hu =>
    rw [List.append_assoc]
    exact (hstart _ _ hu).blocked hs _

theorem Continued.inTurn {α : Type} {R : α → List Token → Prop} {xs : List α} {w : List Token}
    (h : Continued R xs w) : InTurn (Behind R .comma) xs w := by
  induction h with
  | nil => exact .nil
  | cons ht hu _ ih => exact .cons (.mk ht hu) ih

namespace Parser

variable {α β : Type} {n : Nat} {ss ss' : List Symbol} {t : Token} {s : Symbol} {w r : List Token}
  {what : String}

/-! ## Parsers made from parsers -/

/-- `p` reads exactly the tokens `w` if the tokens `r` follow, and what it reads is as it should
be. -/
def Yields (p : Parser α) (w r : List Token) (post : α → Prop) : Prop :=
  ∀ i, ∃ a k, p.Reads ⟨w ++ r, i⟩ a ⟨r, k⟩ ∧ post a

section

variable {p : Parser α} {post : α → Prop} {mid : β → Prop} {test : Token → Bool}

theorem yields_pure {a : α} (h : post a) : Yields (pure a) [] r post :=
  fun i => ⟨a, i, reads_pure.2 ⟨rfl, rfl⟩, h⟩

theorem Yields.bind {q : Parser β} {f : β → Parser α} {u v : List Token}
    (hq : Yields q u (v ++ r) mid) (hf : ∀ b, mid b → Yields (f b) v r post) :
    Yields (q >>= f) (u ++ v) r post := by
  intro i
  obtain ⟨b, j, hb, hmid⟩ := hq i
  obtain ⟨a, k, ha, hpost⟩ := hf b hmid j
  rw [List.append_assoc]
  exact ⟨a, k, reads_bind.2 ⟨b, _, hb, ha⟩, hpost⟩

theorem Yields.map {q : Parser β} {g : β → α} (hq : Yields q w r mid)
    (hg : ∀ b, mid b → post (g b)) : Yields (q >>= fun b => pure (g b)) w r post := by
  rw [← List.append_nil w]
  exact hq.bind fun b hb => yields_pure (hg b hb)

/-- A parser that goes on as another does behind a token. -/
theorem Yields.behind {q : Parser α} (hq : Yields q w r post)
    (h : ∀ i, p ⟨t :: (w ++ r), i⟩ = q ⟨w ++ r, i⟩) : Yields p (t :: w) r post := by
  intro i
  obtain ⟨a, k, ha, hpost⟩ := hq i
  exact ⟨a, k, (h i).trans ha, hpost⟩

theorem yields_freshId {f : NodeId → α} (h : ∀ id, post (f id)) :
    Yields (freshId >>= fun id => pure (f id)) [] r post :=
  fun i => ⟨f i, i + 1, reads_bind.2 ⟨i, _, reads_freshId.2 ⟨rfl, rfl⟩,
    reads_pure.2 ⟨rfl, rfl⟩⟩, h i⟩

theorem yields_acceptIf_some {f : Option Token → Parser α} (ht : test t = true)
    (h : Yields (f (some t)) w r post) : Yields (acceptIf test >>= f) (t :: w) r post := by
  intro i
  obtain ⟨a, k, ha, hpost⟩ := h i
  exact ⟨a, k, reads_bind.2
    ⟨some t, ⟨w ++ r, i⟩, reads_acceptIf (.inl ⟨t, rfl, ht, rfl, rfl⟩), ha⟩, hpost⟩

theorem yields_acceptAny_some {f : Option Token → Parser α} (ht : t.is s = true) (hs : s ∈ ss)
    (h : Yields (f (some t)) w r post) : Yields (acceptAny ss >>= f) (t :: w) r post :=
  yields_acceptIf_some (List.any_eq_true.2 ⟨s, hs, ht⟩) h

theorem yields_acceptIf_none {f : Option Token → Parser α}
    (ht : ∀ t ∈ (w ++ r).head?, test t = false) (h : Yields (f none) w r post) :
    Yields (acceptIf test >>= f) w r post := by
  intro i
  obtain ⟨a, k, ha, hpost⟩ := h i
  exact ⟨a, k, reads_bind.2
    ⟨none, ⟨w ++ r, i⟩, reads_acceptIf (.inr ⟨rfl, rfl, ht⟩), ha⟩, hpost⟩

theorem yields_accept_none {f : Option Token → Parser α} (hr : Blocked [s] (w ++ r))
    (h : Yields (f none) w r post) : Yields (accept s >>= f) w r post :=
  yields_acceptIf_none (hr.not_is (List.mem_singleton_self s)) h

theorem yields_expect (ht : t.is s = true) : Yields (expect s what) [t] r (t = ·) :=
  fun i => ⟨t, i, reads_expect ⟨ht, rfl, rfl⟩, rfl⟩

theorem yields_expect_bind {f : Token → Parser α} (ht : t.is s = true) (h : Yields (f t) w r post) :
    Yields (expect s what >>= f) (t :: w) r post := by
  intro i
  obtain ⟨a, k, ha, hpost⟩ := h i
  exact ⟨a, k, reads_bind.2 ⟨t, ⟨w ++ r, i⟩, reads_expect ⟨ht, rfl, rfl⟩, ha⟩, hpost⟩

theorem yields_check_bind {f : Bool → Parser α} {b : Bool}
    (hb : ∀ i, (Cursor.peek ⟨w ++ r, i⟩).is s = b) (h : Yields (f b) w r post) :
    Yields (check s >>= f) w r post := by
  intro i
  obtain ⟨a, k, ha, hpost⟩ := h i
  exact ⟨a, k, reads_bind.2 ⟨b, _, reads_check.2 ⟨(hb i).symm, rfl⟩, ha⟩, hpost⟩

/-- A phrase that a symbol would continue. -/
theorem Yields.stops {q : Parser β} {f : β → Option Token → Parser α} (hq : Yields q w r mid)
    (hr : Blocked [s] r) (hf : ∀ b, mid b → Yields (f b none) [] r post) :
    Yields (q >>= fun b => accept s >>= f b) w r post := by
  rw [← List.append_nil w]
  exact hq.bind fun b hb => yields_accept_none hr (hf b hb)

end

/-! ## Repetition -/

theorem reads_many_of_items {item : Nat → Parser (Option α)} {c c' : Cursor} {as : List α}
    (h : ReadsItems item 0 c as c') (hn : (item as.length).Reads c' none c')
    (hlen : as.length ≤ c.rest.length) : (many item).Reads c as c' := by
  refine reads_many.2 ⟨c', h, ?_⟩
  rcases Nat.lt_or_eq_of_le hlen with hlt | heq
  · exact .inr ⟨hlt, hn⟩
  · exact .inl ⟨heq, rfl⟩

section Items

variable {item : Nat → Parser (Option α)} {R : β → List Token → Prop} {post : β → α → Prop}
  {firsts : List Symbol} {xs : List β}

/-- Items are read one after the other, if each is read whatever item follows. -/
theorem items_of_inTurn {limit : Nat} (hw : InTurn R xs w) (hn : w.length ≤ n)
    (hr : Blocked ss r) {index : Nat} (hindex : index + xs.length ≤ limit)
    (hitem : ∀ x u, R x u → u.length ≤ n → ∀ index < limit, ∀ r i, Blocked ss r →
      ∃ a k, (item index).Reads ⟨u ++ r, i⟩ (some a) ⟨r, k⟩ ∧ post x a)
    (hstart : ∀ x u, R x u → StartsWith firsts u) (hs : ∀ s ∈ ss, s ∉ firsts) (i : NodeId) :
    ∃ as k, ReadsItems item index ⟨w ++ r, i⟩ as ⟨r, k⟩ ∧ List.Forall₂ post xs as ∧
      as.length ≤ w.length := by
  induction hw generalizing index i with
  | nil => exact ⟨[], i, .nil, .nil, Nat.le_refl _⟩
  | @cons x xs u v hu hv ih =>
    simp only [List.length_append, List.length_cons] at hn hindex
    obtain ⟨a, j, ha, hpost⟩ := hitem x u hu (by omega) index (by omega) (v ++ r) i
      (hv.blocked hstart hs hr)
    obtain ⟨as, k, has, hposts, hlen⟩ := ih (by omega) (by omega : index + 1 + xs.length ≤ limit) j
    have hpos := List.length_pos_iff.2 (hstart x u hu).ne_nil
    rw [List.append_assoc, List.length_append]
    refine ⟨a :: as, k, .cons ha has, .cons hpost hposts, ?_⟩
    rw [List.length_cons]
    omega

theorem yields_many (hw : InTurn R xs w) (hn : w.length ≤ n) (hr : Blocked ss r)
    (hitem : ∀ x u, R x u → u.length ≤ n → ∀ index r i, Blocked ss r →
      ∃ a k, (item index).Reads ⟨u ++ r, i⟩ (some a) ⟨r, k⟩ ∧ post x a)
    (hstart : ∀ x u, R x u → StartsWith firsts u) (hs : ∀ s ∈ ss, s ∉ firsts)
    (hnone : ∀ index i, (item index).Reads ⟨r, i⟩ none ⟨r, i⟩) :
    Yields (many item) w r (List.Forall₂ post xs) := by
  intro i
  obtain ⟨as, k, has, hpost, hlen⟩ := items_of_inTurn hw hn hr (Nat.le_of_eq (Nat.zero_add _))
    (fun x u hu hn index _ => hitem x u hu hn index) hstart hs i
  refine ⟨as, k, reads_many_of_items has (hnone _ _) ?_, hpost⟩
  simp only [List.length_append]
  omega

/-- A list in parentheses is read, if neither a comma nor a parenthesis continues an entry. -/
theorem yields_commaList {p : Parser α} {fault : SyntaxFault} {close : Token}
    (hw : Separated R xs w) (hn : w.length ≤ n) (hclose : close.is .rightParen = true)
    (hp : ∀ x u, R x u → u.length ≤ n → ∀ r, Blocked ss r → Yields p u r (post x))
    (hss : .comma ∉ ss ∧ .rightParen ∉ ss) (hstart : ∀ x u, R x u → StartsWith exprFirsts u) :
    Yields (commaList (limited fault p)) w (close :: r) (List.Forall₂ post xs) := by
  intro i
  cases hw with
  | nil => exact ⟨[], i, reads_commaList (.inl ⟨hclose, rfl, rfl⟩), .nil⟩
  | @cons x xs u v hlimit hu hv =>
    rw [List.length_append] at hn
    have hitem : ∀ y w, Behind R .comma y w → w.length ≤ n → ∀ index < maxArity - 1, ∀ r i,
        Blocked ss r → ∃ b k, (commaItem (limited fault p) index).Reads ⟨w ++ r, i⟩ (some b) ⟨r, k⟩ ∧
          post y b := by
      rintro y _ ⟨ht, hw⟩ hn index hindex r i hr
      obtain ⟨b, k, hb, hpost⟩ := hp y _ hw (Nat.le_of_succ_le hn) r hr i
      exact ⟨b, k, reads_commaItem_some ⟨_, _, ht, rfl, reads_limited ⟨by omega, hb⟩⟩, hpost⟩
    have hcomma : ∀ y w, Behind R .comma y w → StartsWith [.comma] w := by
      rintro y _ ⟨ht, -⟩
      exact startsWith_cons ht (List.mem_singleton_self _)
    have hs : ∀ s ∈ ss, s ∉ [Symbol.comma] := fun s hs h => hss.1 (List.mem_singleton.1 h ▸ hs)
    have hr : Blocked ss (close :: r) := blocked_cons hclose hss.2
    obtain ⟨a, j, ha, hpost⟩ := hp x u hu (by omega) _ (hv.inTurn.blocked hcomma hs hr) i
    obtain ⟨as, k, has, hposts, hlen⟩ := items_of_inTurn hv.inTurn (by omega) hr
      (by omega : 0 + xs.length ≤ _) hitem hcomma hs j
    rw [List.append_assoc]
    refine ⟨a :: as, k, reads_commaList (.inr ⟨(hstart x u hu).peek (by decide) _ i, a, as,
      ⟨v ++ close :: r, j⟩, rfl, reads_limited ⟨by decide, ha⟩, reads_many_of_items has
        (reads_commaItem_none ?_) ?_⟩), .cons hpost hposts⟩
    · rintro _ ⟨⟩
      exact Token.is_eq_false hclose (by decide)
    · rw [List.length_append]
      omega

end Items

/-! ## Operands -/

def callContinues : List Symbol := [.leftParen, .dot]

/-- The symbols that continue an operand of a conditional. -/
def operationContinues : List Symbol :=
  [Symbol.kwOr, .kwAnd, .bangEqual, .equalEqual, .greater, .greaterEqual, .less, .lessEqual, .minus,
    .plus, .star, .slash] ++ callContinues

def exprContinues : List Symbol :=
  [Symbol.equal, .questionQuestion, .question] ++ operationContinues

end Parser

/-- The same expression, but for the numbers of its nodes. -/
def Expr.Same (e e' : Expr) : Prop := e'.unnumbered = e.unnumbered

theorem Exprs.unnumbered_of_same {es es' : List Expr} (h : List.Forall₂ Expr.Same es es') :
    Exprs.unnumbered es' = Exprs.unnumbered es := by
  induction h with
  | nil => rfl
  | cons he _ ih => rw [Exprs.unnumbered, he, ih, Exprs.unnumbered]

theorem Expr.Same.var {id : NodeId} {name : Token} {e : Expr} (h : (Expr.var id name).Same e) :
    ∃ id', e = .var id' name := by
  cases e with
  | var id' name' =>
    obtain rfl : name' = name := by simpa [Expr.Same, Expr.unnumbered] using h
    exact ⟨id', rfl⟩
  | _ => simp [Expr.Same, Expr.unnumbered] at h

theorem Expr.Same.get {l : Expr} {name : Token} {e : Expr} (h : (Expr.get l name).Same e) :
    ∃ l', e = .get l' name ∧ l.Same l' := by
  cases e with
  | get l' name' =>
    obtain ⟨hl, rfl⟩ : l.Same l' ∧ name' = name := by simpa [Expr.Same, Expr.unnumbered] using h
    exact ⟨l', rfl, hl⟩
  | _ => simp [Expr.Same, Expr.unnumbered] at h

/-- A token that denotes a constant is read as the constant. -/
theorem Token.Denotes.leaf {t : Token} {value : Literal} (h : t.Denotes value) (i : NodeId) :
    Parser.leaf? t i = some (.literal value, i) := by
  cases value with
  | number x =>
    obtain ⟨d, hd, rfl⟩ := h
    rw [Parser.leaf?, hd]
  | string text => rw [Parser.leaf?, show t.kind = .string text from h]
  | bool b => cases b <;> rw [Parser.leaf?, Token.is_iff.1 h] <;> rfl
  | nil => rw [Parser.leaf?, Token.is_iff.1 h]

namespace Parser

/-- What an expression of a level is written as is read as the expression, if it has no more than
`n` tokens and none of the symbols follows. -/
def Rereads (n : Nat) (p : Parser Expr) (ss : List Symbol) (j : Nat) : Prop :=
  ∀ ⦃e w⦄, Expr.Written j e w → w.length ≤ n → ∀ ⦃r⦄, Blocked ss r → Yields p w r e.Same

section Spine

variable {σ : Type} {first : Parser Expr} {item : Parser (Option σ)} {f : Expr → σ → Expr}
  {u v : List Token} {e e' : Expr}

/-- A node with left operands in a row is read up to `r`, the innermost one first. -/
def Spine (first : Parser Expr) (item : Parser (Option σ)) (f : Expr → σ → Expr)
    (w r : List Token) (e : Expr) : Prop :=
  ∀ i, ∃ a c as k, first.Reads ⟨w ++ r, i⟩ a c ∧ ReadsItems (fun _ => item) 0 c as ⟨r, k⟩ ∧
    e.Same (as.foldl f a) ∧ as.length + r.length ≤ c.rest.length

theorem Yields.spine (h : Yields first w r e.Same) : Spine first item f w r e := by
  intro i
  obtain ⟨a, k, ha, he⟩ := h i
  exact ⟨a, ⟨r, k⟩, [], k, ha, .nil, he, by simp⟩

theorem Spine.snoc (h : Spine first item f u (v ++ r) e) (hne : v ≠ [])
    (hv : Yields item v r fun o => ∃ a, o = some a ∧ ∀ l, e.Same l → e'.Same (f l a)) :
    Spine first item f (u ++ v) r e' := by
  intro i
  obtain ⟨a, c, as, j, ha, has, he, hlen⟩ := h i
  obtain ⟨_, k, hb, b, rfl, hsame⟩ := hv j
  rw [List.append_assoc]
  refine ⟨a, c, as ++ [b], k, ha, has.snoc hb, ?_, ?_⟩
  · rw [List.foldl_append]
    exact hsame _ he
  · have := List.length_pos_iff.2 hne
    simp only [List.length_append, List.length_cons, List.length_nil] at hlen ⊢
    omega

theorem Spine.yields (h : Spine first item f w r e)
    (hnone : ∀ i, item.Reads ⟨r, i⟩ none ⟨r, i⟩) :
    Yields (do let a ← first; let as ← many fun _ => item; pure (as.foldl f a)) w r e.Same := by
  intro i
  obtain ⟨a, c, as, k, ha, has, he, hlen⟩ := h i
  exact ⟨_, k, reads_bind.2 ⟨a, c, ha, reads_bind.2 ⟨as, _, reads_many_of_items has (hnone k)
    (by omega), reads_pure.2 ⟨rfl, rfl⟩⟩⟩, he⟩

end Spine

/-- An item in front of others. -/
theorem Reads.many_cons {item : Parser (Option α)} {a : α} {as : List α} {i j : NodeId} {c : Cursor}
    (ha : item.Reads ⟨t :: r, i⟩ (some a) ⟨r, j⟩) (has : (many fun _ => item).Reads ⟨r, j⟩ as c) :
    (many fun _ => item).Reads ⟨t :: r, i⟩ (a :: as) c := by
  have hindex : ∀ budget k, manyUpTo (fun _ => item) budget k =
      manyUpTo (fun _ => item) budget 0 := by
    intro budget
    induction budget with
    | nil => exact fun _ => rfl
    | cons t budget ih => exact fun k => by simp only [manyUpTo, ih (k + 1), ih (0 + 1)]
  change (manyUpTo (fun _ => item) (t :: r) 0).Reads _ _ _
  rw [manyUpTo, hindex]
  exact reads_bind.2 ⟨some a, _, ha, reads_bind.2 ⟨as, c, has, reads_pure.2 ⟨rfl, rfl⟩⟩⟩

section Rules

variable {expr : Parser Expr} (h : Rereads n expr exprContinues 0)
include h

/-- A primary expression ends itself, whatever follows. -/
theorem rereads_primary : Rereads (n + 1) (primary expr) [] 10 := by
  intro e w hw hn r _
  have hleaf : ∀ {t : Token} {e : Expr}, (∀ i, ∃ e' k, leaf? t i = some (e', k) ∧ e.Same e') →
      Yields (primary expr) [t] r e.Same := by
    intro t e h i
    obtain ⟨e', k, he, hsame⟩ := h i
    exact ⟨e', k, primary_leaf he, hsame⟩
  cases hw with
  | literal _ ht => exact hleaf fun i => ⟨_, _, ht.leaf i, rfl⟩
  | @var _ _ name _ ht =>
    exact hleaf fun i => ⟨.var i name, _, by rw [leaf?, Token.is_iff.1 ht], rfl⟩
  | @thisRef _ _ t _ ht =>
    exact hleaf fun i => ⟨.thisRef i t, _, by rw [leaf?, Token.is_iff.1 ht], rfl⟩
  | superRef _ ht hdot hname =>
    refine Yields.behind ?_ fun i => primary_super ht
    exact yields_expect_bind hdot (yields_expect_bind hname (yields_freshId fun _ => rfl))
  | grouping _ ht he hclose =>
    simp only [List.length_append, List.length_cons, List.length_nil] at hn
    refine Yields.behind ?_ fun i => primary_paren ht
    exact (h he (by omega) (blocked_cons hclose (by decide))).bind fun e' he' =>
      yields_expect_bind hclose (yields_pure (congrArg Expr.grouping he'))
  | operation hj => omega
  | _ => omega

theorem yields_arguments {es : List Expr} {close : Token} (hw : Separated (Expr.Written 0) es w)
    (hn : w.length ≤ n) (hclose : close.is .rightParen = true) :
    Yields (arguments expr) (w ++ [close]) r fun s =>
      ∃ es', s = .arguments close es' ∧ Exprs.unnumbered es' = Exprs.unnumbered es := by
  have hlist : Yields (commaList (limited (.tooManyArguments maxArity) expr)) w (close :: r)
      (List.Forall₂ Expr.Same es) :=
    yields_commaList hw hn hclose h (by decide) fun e u hu => hu.starts_expression
  exact hlist.bind fun es' hes' => yields_expect_bind hclose
    (yields_pure ⟨es', rfl, Exprs.unnumbered_of_same hes'⟩)

/-- What can be called is read, up to any of its suffixes. -/
theorem spine_call {e : Expr} {w r : List Token} (hw : Expr.Written 9 e w)
    (hn : w.length ≤ n + 1) : Spine (primary expr) (suffix expr) Suffix.apply w r e := by
  cases hw with
  | call _ he ht hes hclose =>
    simp only [List.length_append, List.length_cons, List.length_nil] at hn
    refine (spine_call he (by omega)).snoc (List.cons_ne_nil _ _) (yields_acceptIf_some ht
      ((yields_arguments h hes (by omega) hclose).map ?_))
    rintro _ ⟨es', rfl, hes'⟩
    refine ⟨_, rfl, fun l hl => ?_⟩
    simp only [Expr.Same, Suffix.apply, Expr.unnumbered, hes', show l.unnumbered = _ from hl]
  | @get _ e u t name _ he ht hname =>
    simp only [List.length_append, List.length_cons, List.length_nil] at hn
    refine (spine_call he (by omega)).snoc (List.cons_ne_nil _ _) ?_
    refine yields_accept_none (blocked_cons ht (by decide)) (yields_acceptIf_some ht ?_)
    have hproperty : Yields (Suffix.property <$> expect .identifier "property name after '.'") [name]
        r (· = .property name) := yields_expect_bind hname (yields_pure rfl)
    refine hproperty.map ?_
    rintro _ rfl
    exact ⟨_, rfl, fun l hl => congrArg (Expr.get · name) hl⟩
  | operation hj hi => omega
  | _ => first
    | omega
    | exact (rereads_primary h (by constructor <;> first | assumption | omega)
      hn fun _ _ => rfl).spine
termination_by w.length
decreasing_by
  all_goals
    subst_vars
    simp

theorem rereads_call : Rereads (n + 1) (call expr) callContinues 9 := by
  intro e w hw hn r hr
  refine (spine_call h hw hn).yields fun i => ?_
  have haccept : ∀ s ∈ callContinues, (accept s).Reads ⟨r, i⟩ none ⟨r, i⟩ :=
    fun s hs => reads_accept (.inr ⟨rfl, rfl, hr.not_is hs⟩)
  exact reads_bind.2 ⟨none, _, haccept _ (by decide), reads_bind.2 ⟨none, _, haccept _ (by decide),
    reads_pure.2 ⟨rfl, rfl⟩⟩⟩

/-- Signs are read in a loop, and put on the operand from the inside out. -/
theorem yields_unary {e : Expr} {w r : List Token} (hw : Expr.Written 8 e w)
    (hn : w.length ≤ n + 1) (hr : Blocked callContinues r) : Yields (unary expr) w r e.Same := by
  have hcall : Expr.Written 9 e w → Yields (unary expr) w r e.Same := by
    intro hw i
    obtain ⟨a, k, ha, he⟩ := rereads_call h hw hn hr i
    have hstart := (hw.starts (List.Subset.refl _) (by omega)).blocked
      (by decide : ∀ s ∈ [Symbol.bang, .minus], _) r
    exact ⟨a, k, reads_bind.2 ⟨[], _, reads_many_of_items .nil (reads_acceptAny (.inr ⟨rfl, rfl,
      hstart⟩)) (Nat.zero_le _), reads_bind.2 ⟨a, _, ha, reads_pure.2 ⟨rfl, rfl⟩⟩⟩, he⟩
  cases hw with
  | @unary _ op e w _ hop he =>
    intro i
    obtain ⟨e', k, he', hsame⟩ := yields_unary he (Nat.le_of_succ_le hn) hr i
    obtain ⟨signs, c, hsigns, hrest⟩ := reads_bind.1 he'
    obtain ⟨a, _, ha, hp⟩ := reads_bind.1 hrest
    obtain ⟨rfl, rfl⟩ := reads_pure.1 hp
    refine ⟨.unary op (signs.foldr Expr.unary a), k, reads_bind.2 ⟨op :: signs, c, ?_,
      reads_bind.2 ⟨a, _, ha, reads_pure.2 ⟨rfl, rfl⟩⟩⟩, congrArg (Expr.unary op) hsame⟩
    exact Reads.many_cons (reads_acceptAny (.inl ⟨op, rfl, hop, rfl, rfl⟩)) hsigns
  | operation hj hi => omega
  | _ => first
    | omega
    | exact hcall (by constructor <;> first | assumption | omega)
termination_by w.length

end Rules

/-! ## Levels of operators -/

theorem unnumbered_node {level : Level} {k : Nat} (h : levels[k]? = some level) (l : Expr)
    (op : Token) (r : Expr) :
    (level.node l op r).unnumbered = level.node l.unnumbered op r.unnumbered := by
  have hmem := List.mem_of_getElem? h
  simp only [levels, List.mem_cons, List.not_mem_nil, or_false] at hmem
  rcases hmem with rfl | rfl | rfl | rfl | rfl | rfl <;> rfl

section Chain

variable {level : Level} {operand : Parser Expr} {continues : List Symbol} {k : Nat}
  (hlevel : levels[k]? = some level) (hdisjoint : ∀ s ∈ level.operators, s ∉ continues)
  (h : Rereads n operand continues (k + 3))
include hlevel hdisjoint h

/-- Operands of a level are read one after the other. -/
theorem spine_chain {e : Expr} {w r : List Token} (hw : Expr.Written (k + 2) e w)
    (hn : w.length ≤ n) (hr : Blocked continues r) : Spine operand (rightOperand level operand)
      (fun left other => level.node left other.1 other.2) w r e := by
  have htighter : Expr.Written (k + 3) e w → Spine operand (rightOperand level operand)
      (fun left other => level.node left other.1 other.2) w r e := fun hw => (h hw hn hr).spine
  have hk : k < 6 := (List.getElem?_eq_some_iff.1 hlevel).1
  cases hw with
  | @operation _ i level' l op e u v hj hi hi' hl hop he =>
    rcases Nat.lt_or_eq_of_le (Nat.le_of_add_le_add_right hj) with hlt | rfl
    · exact htighter (.operation (by omega) hi hi' hl hop he)
    obtain rfl := Option.some.inj (hlevel.symm.trans hi')
    simp only [List.length_append, List.length_cons] at hn
    obtain ⟨s, hs, his⟩ := List.any_eq_true.1 hop
    have hleft := spine_chain hl (r := op :: v ++ r) (by omega) (blocked_cons his (hdisjoint s hs))
    refine hleft.snoc (List.cons_ne_nil _ _) (yields_acceptIf_some hop ?_)
    refine (h he (by omega) hr).map fun e' he' => ⟨(op, e'), rfl, fun l' hl' => ?_⟩
    have hnode := unnumbered_node hlevel
    simp only [Expr.Same, hnode, show e'.unnumbered = _ from he', show l'.unnumbered = _ from hl']
  | _ => exact htighter (by constructor <;> first | assumption | omega)
termination_by w.length
decreasing_by
  all_goals
    subst_vars
    simp

theorem rereads_chain : Rereads n (chain level operand) (level.operators ++ continues) (k + 2) := by
  intro e w hw hn r hr
  refine (spine_chain hlevel hdisjoint h hw hn (hr.mono (List.subset_append_right _ _))).yields
    fun i => ?_
  exact reads_bind.2 ⟨none, _, reads_acceptAny
    (.inr ⟨rfl, rfl, hr.mono (List.subset_append_left _ _)⟩),
    reads_pure.2 ⟨rfl, rfl⟩⟩

end Chain

section Rules

variable {expr : Parser Expr} (h : Rereads n expr exprContinues 0)
include h

theorem rereads_operations : Rereads (n + 1) (operations expr) operationContinues 2 := by
  have h : Rereads (n + 1) (unary expr) callContinues 8 :=
    fun _ _ hw hn _ hr => yields_unary h hw hn hr
  have h := rereads_chain (k := 5) rfl (by decide) h
  have h := rereads_chain (k := 4) rfl (by decide) h
  have h := rereads_chain (k := 3) rfl (by decide) h
  have h := rereads_chain (k := 2) rfl (by decide) h
  have h := rereads_chain (k := 1) rfl (by decide) h
  exact rereads_chain (k := 0) rfl (by decide) h

theorem yields_coalescing {e : Expr} (hw : Expr.Written 2 e w) (hn : w.length ≤ n + 1)
    (hr : Blocked ([Symbol.questionQuestion, .question] ++ operationContinues) r) :
    Yields (coalescing expr) w r e.Same :=
  Yields.stops (Yields.stops (rereads_operations h hw hn (hr.mono (by decide)))
    (hr.mono (by decide)) fun _ => yields_pure) (hr.mono (by decide))
      fun _ => yields_pure

/-- A target is read as what is stored to. -/
theorem yields_store {target : Expr} {u v : List Token} {e : Expr} {post : Expr → Prop}
    (hu : Expr.Written 2 target u) (ht : t.is .equal = true) (hv : Expr.Written 0 e v)
    (hn : u.length + (v.length + 1) ≤ n + 1) (hr : Blocked exprContinues r)
    (hstore : ∀ l v, target.Same l → e.Same v → Yields (store l t v) [] r post) :
    Yields (assignment expr) (u ++ t :: v) r post := by
  refine (yields_coalescing h hu (by omega) (blocked_cons ht (by decide))).bind fun l hl =>
    yields_acceptIf_some ht ?_
  rw [← List.append_nil v]
  exact (h hv (by omega) hr).bind fun e' he' => hstore l e' hl he'

/-- The target of an assignment is read as an expression first. -/
theorem rereads_assignment : Rereads (n + 1) (assignment expr) exprContinues 0 := by
  intro e w hw hn r hr
  have hloose : Expr.Written 2 e w → Yields (assignment expr) w r e.Same := fun hw =>
    Yields.stops (yields_coalescing h hw hn (hr.mono (by decide))) (hr.mono (by decide))
      fun _ => yields_pure
  cases hw with
  | conditional _ hc ht ha ht₁ hb =>
    simp only [List.length_append, List.length_cons] at hn
    refine Yields.stops (Yields.stops ?_ (hr.mono (by decide)) fun _ => yields_pure)
      (hr.mono (by decide))
      fun _ => yields_pure
    refine (rereads_operations h hc (by omega) (blocked_cons ht (by decide))).bind fun c' hc' =>
      yields_acceptIf_some ht ?_
    refine (h ha (by omega) (blocked_cons ht₁ (by decide))).bind fun a' ha' =>
      yields_expect_bind ht₁ ?_
    refine (h hb (by omega) hr).map fun b' hb' => ?_
    simp only [Expr.Same, Expr.unnumbered] at hc' ha' hb' ⊢
    rw [hc', ha', hb']
  | coalesce _ hl hop hr' =>
    simp only [List.length_append, List.length_cons] at hn
    refine Yields.stops ?_ (hr.mono (by decide)) fun _ => yields_pure
    refine (Yields.stops (rereads_operations h hl (by omega) (blocked_cons hop (by decide)))
      (blocked_cons hop (by decide)) fun _ => yields_pure).bind fun l' hl' =>
      yields_acceptIf_some hop ?_
    refine (h hr' (by omega) hr).map fun r' hr' => ?_
    simp only [Expr.Same, Expr.unnumbered, Expr.coalesce] at hl' hr' ⊢
    rw [hl', hr']
  | @assign _ id name e t w _ hname ht he =>
    rw [List.length_cons, List.length_cons] at hn
    have hvar : Expr.Written 2 (.var id name) [name] := .var (by omega) hname
    change Yields (assignment expr) ([name] ++ t :: w) r _
    refine yields_store h hvar ht he (by rw [List.length_singleton]; omega) hr fun l v hl hv => ?_
    obtain ⟨id', rfl⟩ := hl.var
    exact yields_freshId fun _ => congrArg (Expr.assign 0 name) hv
  | @set _ e name e₁ u t t₁ v _ he ht hname ht₁ he₁ =>
    simp only [List.length_append, List.length_cons] at hn
    rw [show u ++ t :: name :: t₁ :: v = u ++ [t, name] ++ t₁ :: v by simp]
    have hget : Expr.Written 2 (.get e name) (u ++ [t, name]) := .get (by omega) he ht hname
    refine yields_store h hget ht₁ he₁ (by simp; omega) hr fun l v hl hv => ?_
    obtain ⟨e', rfl, he'⟩ := hl.get
    refine yields_pure ?_
    simp only [Expr.Same, Expr.unnumbered] at he' hv ⊢
    rw [he', hv]
  | _ => exact hloose (by constructor <;> first | assumption | omega)

end Rules

theorem rereads_expressionUpTo (budget : List Token) :
    Rereads (budget.length + 1) (expressionUpTo budget) exprContinues 0 := by
  induction budget with
  | nil =>
    have hgiveUp : Rereads 0 giveUp exprContinues 0 := by
      intro e w hw hn
      obtain ⟨t, v, rfl, -⟩ := hw.starts_expression
      exact absurd hn (Nat.not_succ_le_zero _)
    exact rereads_assignment hgiveUp
  | cons t budget ih => exact rereads_assignment ih

theorem yields_expression {e : Expr} (hw : Expr.Written 0 e w) (hr : Blocked exprContinues r) :
    Yields expression w r e.Same :=
  fun i => rereads_expressionUpTo (w ++ r) hw (by rw [List.length_append]; omega) hr i

end Parser

/-! ## Parts of statements -/

def Expr.SameOption (o o' : Option Expr) : Prop := o'.map Expr.unnumbered = o.map Expr.unnumbered

theorem Expr.Same.some {e e' : Expr} (h : e.Same e') : Expr.SameOption (some e) (some e') :=
  congrArg Option.some h

def Stmt.Same (s s' : Stmt) : Prop := s'.unnumbered = s.unnumbered

/-- The statement was read, and not left out. -/
def Stmt.Kept (s : Stmt) (o : Option Stmt) : Prop := ∃ s', o = some s' ∧ s.Same s'

theorem Stmts.unnumbered_of_kept {ss : List Stmt} {os : List (Option Stmt)}
    (h : List.Forall₂ Stmt.Kept ss os) :
    Stmts.unnumbered os.reduceOption = Stmts.unnumbered ss := by
  induction h with
  | nil => rfl
  | cons hs _ ih =>
    obtain ⟨s', rfl, hs⟩ := hs
    change Stmts.unnumbered (s' :: List.reduceOption _) = _
    rw [Stmts.unnumbered, hs, ih, Stmts.unnumbered]

def FunctionDecl.Same (f f' : FunctionDecl) : Prop := f'.unnumbered = f.unnumbered

def Member.Same (m m' : Bool × FunctionDecl) : Prop := m'.1 = m.1 ∧ m.2.Same m'.2

theorem Member.unnumbered_filter {ms ms' : List (Bool × FunctionDecl)}
    (h : List.Forall₂ Member.Same ms ms') (p : Bool → Bool) :
    FunctionDecls.unnumbered ((ms'.filter fun m => p m.1).map Prod.snd) =
      FunctionDecls.unnumbered ((ms.filter fun m => p m.1).map Prod.snd) := by
  induction h with
  | nil => rfl
  | cons hm _ ih =>
    simp only [List.filter_cons, hm.1]
    split
    · rw [List.map_cons, FunctionDecls.unnumbered, hm.2, ih, List.map_cons, FunctionDecls.unnumbered]
    · exact ih

namespace Parser

theorem yields_terminated {p : Parser α} {post : α → Prop} (h : Yields p w (t :: r) post)
    (ht : t.is .semicolon = true) : Yields (terminated p what) (w ++ [t]) r post :=
  h.bind fun _ ha => yields_expect_bind ht (yields_pure ha)

theorem yields_expressionUnless {o : Option Expr} (hw : Perhaps (Expr.Written 0) o w)
    (ht : t.is s = true) (hs : s ∈ [Symbol.semicolon, .rightParen]) :
    Yields (expressionUnless s) w (t :: r) (Expr.SameOption o) := by
  cases hw with
  | none => exact yields_check_bind (fun _ => ht) (yields_pure rfl)
  | some he =>
    have hs : s ∉ exprContinues ∧ s ∉ exprFirsts :=
      (by decide : ∀ s ∈ [Symbol.semicolon, .rightParen], s ∉ exprContinues ∧ s ∉ exprFirsts) s hs
    exact yields_check_bind (he.starts_expression.peek hs.2 _)
      ((yields_expression he (blocked_cons ht hs.1)).map fun _ => Expr.Same.some)

theorem yields_expressionStatement {e : Expr} (hw : Expr.Written 0 e w)
    (ht : t.is .semicolon = true) :
    Yields expressionStatement (w ++ [t]) r (Stmt.expression e).Same :=
  (yields_terminated (yields_expression hw (blocked_cons ht (by decide))) ht).map
    fun _ he => congrArg Stmt.expression he

theorem yields_varDecl {name : Token} {o : Option Expr} (hname : name.is .identifier = true)
    (hw : Perhaps (Behind (Expr.Written 0) .equal) o w) (ht : t.is .semicolon = true) :
    Yields varDecl (name :: (w ++ [t])) r (Stmt.varDecl name o).Same := by
  have hvalue : Yields initializer w (t :: r) (Expr.SameOption o) := by
    cases hw with
    | none => exact yields_accept_none (blocked_cons ht (by decide)) (yields_pure rfl)
    | some h =>
      obtain ⟨hequal, he⟩ := h
      exact yields_acceptIf_some hequal ((yields_expression he (blocked_cons ht (by decide))).map
        fun _ => Expr.Same.some)
  exact yields_expect_bind hname ((yields_terminated hvalue ht).map
    fun _ ho => congrArg (Stmt.varDecl name) ho)

theorem yields_forInitializer {o : Option Stmt} (hw : Stmt.BeforeLoop o w) :
    Yields forInitializer w r fun o' => o'.map Stmt.unnumbered = o.map Stmt.unnumbered := by
  cases hw with
  | none ht => exact yields_acceptIf_some ht (yields_pure rfl)
  | varDecl ht hname hw hend =>
    exact yields_accept_none (blocked_cons ht (by decide)) (yields_acceptIf_some ht
      ((yields_varDecl hname hw hend).map fun _ => congrArg some))
  | expression he hend =>
    have hstart := he.starts_expression.append
    exact yields_accept_none ((hstart _).blocked (by decide) r) (yields_accept_none
      ((hstart _).blocked (by decide) r) ((yields_expressionStatement he hend).map
        fun _ => congrArg some))

theorem yields_superclass {o : Option Expr} (hw : Perhaps (Behind Expr.Named .less) o w)
    (ht : t.is .leftBrace = true) : Yields superclass w (t :: r) (Expr.SameOption o) := by
  cases hw with
  | none => exact yields_accept_none (blocked_cons ht (by decide)) (yields_pure rfl)
  | some h =>
    obtain ⟨hless, id, name, rfl, hname, rfl⟩ := h
    exact yields_acceptIf_some hless (yields_expect_bind hname (yields_freshId fun _ => rfl))

/-! ## Blocks, functions and classes -/

/-- An item in braces is missing at the closing brace. -/
theorem reads_beforeBrace_none {item : Parser (Option α)} {c : Cursor}
    (hc : c.peek.is .rightBrace = true) : (beforeBrace item).Reads c none c := by
  rw [Reads, beforeBrace_apply, hc]
  rfl

/-- An item in braces is read where neither the closing brace is nor the end. -/
theorem reads_beforeBrace {item : Parser (Option α)} {ss : List Symbol} {i : NodeId} {c : Cursor}
    {o : Option α} (h : item.Reads ⟨w ++ r, i⟩ o c) (hw : StartsWith ss w)
    (hss : .rightBrace ∉ ss ∧ .eof ∉ ss) : (beforeBrace item).Reads ⟨w ++ r, i⟩ o c := by
  rw [Reads, beforeBrace_apply, hw.peek hss.1, Cursor.atEnd, Token.isEnd, hw.peek hss.2]
  exact h

/-- Declarations are read if they have no more than `n` tokens and no `else` follows. -/
def RereadsDecls (n : Nat) (decl : Parser (Option Stmt)) : Prop :=
  ∀ ⦃s w⦄, Stmt.Written 0 s w → w.length ≤ n → ∀ ⦃r⦄, Blocked [.kwElse] r →
    Yields decl w r s.Kept

section Rules

variable {decl : Parser (Option Stmt)} (h : RereadsDecls n decl)
include h

theorem yields_block {ss : List Stmt} (hw : InTurn (Stmt.Written 0) ss w) (hn : w.length ≤ n)
    (ht : t.is .rightBrace = true) :
    Yields (block decl) (w ++ [t]) r fun ss' => Stmts.unnumbered ss' = Stmts.unnumbered ss := by
  refine (yields_many hw hn (blocked_cons ht (by decide) : Blocked [.kwElse] _)
    (fun s u hu hn _ r i hr => ?_) (fun s u hu => hu.starts_declaration) (by decide)
    fun _ _ => reads_beforeBrace_none ht).bind
      fun os hos => yields_expect_bind ht (yields_pure (Stmts.unnumbered_of_kept hos))
  obtain ⟨o, k, ho, hs⟩ := h hu hn hr i
  exact ⟨o, k, reads_beforeBrace (reads_map.2 ⟨o, ho, rfl⟩) hu.starts_declaration (by decide), hs⟩

theorem yields_function {kind : String} {f : FunctionDecl} (hw : FunctionDecl.Written f w)
    (hn : w.length ≤ n) : Yields (function kind decl) w r f.Same := by
  obtain @⟨name, ps, ss, t, u, t₁, t₂, v, t₃, hname, ht, hps, ht₁, ht₂, hss, ht₃⟩ := hw
  simp only [List.length_append, List.length_cons, List.length_nil] at hn
  refine yields_expect_bind hname (yields_expect_bind ht ?_)
  have hlist : Yields (commaList (limited (.tooManyParameters maxArity)
      (expect .identifier "parameter name"))) u (t₁ :: t₂ :: (v ++ [t₃]) ++ r)
        (List.Forall₂ Eq ps) := by
    refine yields_commaList hps (Nat.le_refl _) ht₁ ?_ (by decide : _ ∉ [] ∧ _ ∉ []) ?_
    · rintro p _ ⟨hp, rfl⟩ - r -
      exact yields_expect hp
    · rintro p _ ⟨hp, rfl⟩
      exact startsWith_cons hp (by decide)
  refine hlist.bind fun ps' hps' => yields_expect_bind ht₁ (yields_expect_bind ht₂
    ((yields_block h hss (by omega) ht₃).map fun ss' hss' => ?_))
  rw [List.forall₂_eq_eq_eq] at hps'
  simp only [FunctionDecl.Same, FunctionDecl.unnumbered, hss', hps']

theorem yields_member {m : Bool × FunctionDecl} (hw : Member.Written m w) (hn : w.length ≤ n)
    (i : NodeId) :
    ∃ m' k, (member decl).Reads ⟨w ++ r, i⟩ (some m') ⟨r, k⟩ ∧ Member.Same m m' := by
  cases hw with
  | method hf =>
    obtain ⟨f', k, hread, hf'⟩ := yields_function h hf hn i
    refine ⟨(false, f'), k, reads_beforeBrace (reads_bind.2 ⟨none, _, reads_accept (.inr ⟨rfl, rfl,
      (hf.starts.blocked (by decide) r).not_is (List.mem_singleton_self _)⟩),
        reads_map.2 ⟨f', hread, rfl⟩⟩) hf.starts (by decide), rfl, hf'⟩
  | static ht hf =>
    obtain ⟨f', k, hread, hf'⟩ := yields_function h hf (Nat.le_of_succ_le hn) i
    exact ⟨(true, f'), k, reads_beforeBrace (reads_bind.2 ⟨some _, ⟨_ ++ r, i⟩, reads_accept
      (.inl ⟨_, rfl, ht, rfl, rfl⟩), reads_map.2 ⟨f', hread, rfl⟩⟩)
        (startsWith_cons ht (List.mem_singleton_self _)) (by decide), rfl, hf'⟩

theorem yields_classDecl {name t₁ t₂ : Token} {o : Option Expr} {u : List Token}
    {ms : List (Bool × FunctionDecl)} (hname : name.is .identifier = true)
    (ho : Perhaps (Behind Expr.Named .less) o u) (ht₁ : t₁.is .leftBrace = true)
    (hw : InTurn (Member.Written) ms w) (hn : w.length ≤ n) (ht₂ : t₂.is .rightBrace = true) :
    Yields (classDecl decl) (name :: (u ++ t₁ :: (w ++ [t₂]))) r
      (Stmt.classDecl ⟨name, o, (ms.filter fun m => !m.1).map Prod.snd,
        (ms.filter fun m => m.1).map Prod.snd⟩).Same := by
  refine yields_expect_bind hname ((yields_superclass ho ht₁).bind fun o' ho' =>
    yields_expect_bind ht₁ ?_)
  refine (yields_many hw hn (blocked_cons ht₂ List.not_mem_nil)
    (fun m u hu hn _ r i _ => yields_member h hu hn i) (fun m u hu => hu.starts) (by decide)
    fun _ _ => reads_beforeBrace_none ht₂).bind fun ms' hms' =>
      yields_expect_bind ht₂ (yields_pure ?_)
  have hfilter := Member.unnumbered_filter hms'
  simp only [Stmt.Same, Stmt.unnumbered, hfilter fun b => b, hfilter not,
    show o'.map _ = _ from ho']

end Rules

/-! ## Statements -/

theorem yields_condition {f : Expr → Parser α} {post : α → Prop} {c : Expr} {t₁ t₂ : Token}
    {u : List Token} {what what' : String} (ht₁ : t₁.is .leftParen = true)
    (hc : Expr.Written 0 c u) (ht₂ : t₂.is .rightParen = true)
    (h : ∀ c', c.Same c' → Yields (f c') w r post) :
    Yields (do
      let _ ← expect .leftParen what
      let c ← expression
      let _ ← expect .rightParen what'
      f c) (t₁ :: (u ++ t₂ :: w)) r post :=
  yields_expect_bind ht₁ ((yields_expression hc (blocked_cons ht₂ (by decide))).bind
    fun c' hc' => yields_expect_bind ht₂ (h c' hc'))

/-- Statements are read if they have no more than `n` tokens. No `else` may follow, if they are not
of the last level. -/
def RereadsStmts (n : Nat) (stmt : Parser Stmt) : Prop :=
  ∀ ⦃j s w⦄, Stmt.Written j s w → 1 ≤ j → w.length ≤ n →
    ∀ ⦃r⦄, 2 ≤ j ∨ Blocked [.kwElse] r → Yields stmt w r s.Same

section Rules

variable {stmt : Parser Stmt} {decl : Parser (Option Stmt)} (hstmt : RereadsStmts n stmt)
  (hdecl : RereadsDecls n decl)
include hstmt hdecl

/-- The first token of a statement tells its form. -/
theorem rereads_statement : RereadsStmts (n + 1) (statement stmt decl) := by
  intro j s w hw hj hn r hr
  cases hw with
  | expression _ he ht =>
    refine yields_acceptIf_none ?_ (yields_expressionStatement he ht)
    exact (he.starts_expression.append _).blocked (by decide) r
  | print _ ht he ht₁ =>
    refine yields_acceptAny_some ht (by decide) ?_
    simp only [Token.is_iff.1 ht]
    exact (yields_terminated (yields_expression he (blocked_cons ht₁ (by decide))) ht₁).map
      fun _ h => congrArg Stmt.print h
  | returnWith _ ht ho ht₁ =>
    refine yields_acceptAny_some ht (by decide) ?_
    simp only [Token.is_iff.1 ht]
    exact (yields_terminated (yields_expressionUnless ho ht₁ (by decide)) ht₁).map
      fun _ h => congrArg (Stmt.returnWith _) h
  | block _ ht hss ht₁ =>
    simp only [List.length_append, List.length_cons] at hn
    refine yields_acceptAny_some ht (by decide) ?_
    simp only [Token.is_iff.1 ht]
    exact (yields_block hdecl hss (by omega) ht₁).map fun _ h => congrArg Stmt.block h
  | ifThen _ ht ht₁ hc ht₂ hs =>
    simp only [List.length_append, List.length_cons] at hn
    have hr : Blocked [.kwElse] r := hr.resolve_left (by omega)
    refine yields_acceptAny_some ht (by decide) ?_
    simp only [Token.is_iff.1 ht]
    refine yields_condition ht₁ hc ht₂ fun c' hc' => ?_
    refine Yields.stops (hstmt hs (by omega) (by omega) (.inr hr)) hr fun s' hs' => yields_pure ?_
    simp only [Stmt.Same, Expr.Same, Stmt.unnumbered] at hc' hs' ⊢
    rw [hc', hs']
  | ifElse hk hk₁ ht ht₁ hc ht₂ hs ht₃ hs₁ =>
    simp only [List.length_append, List.length_cons] at hn
    refine yields_acceptAny_some ht (by decide) ?_
    simp only [Token.is_iff.1 ht]
    refine yields_condition ht₁ hc ht₂ fun c' hc' => ?_
    refine (hstmt hs (by omega) (by omega) (.inl (by omega))).bind fun s' hs' =>
      yields_acceptIf_some ht₃ ?_
    refine (hstmt hs₁ hk₁ (by omega) (hr.imp_left (by omega))).map fun s₁' hs₁' => ?_
    simp only [Stmt.Same, Expr.Same, Stmt.unnumbered] at hc' hs' hs₁' ⊢
    rw [hc', hs', hs₁']
  | whileLoop hk hk₁ ht ht₁ hc ht₂ hs =>
    simp only [List.length_append, List.length_cons] at hn
    refine yields_acceptAny_some ht (by decide) ?_
    simp only [Token.is_iff.1 ht]
    refine yields_condition ht₁ hc ht₂ fun c' hc' => ?_
    refine (hstmt hs hk₁ (by omega) (hr.imp_left (by omega))).map fun s' hs' => ?_
    simp only [Stmt.Same, Expr.Same, Stmt.unnumbered] at hc' hs' ⊢
    rw [hc', hs']
  | forLoop hk hk₁ ht ht₁ ho hc ht₂ hc₁ ht₃ hs =>
    simp only [List.length_append, List.length_cons] at hn
    refine yields_acceptAny_some ht (by decide) ?_
    simp only [Token.is_iff.1 ht]
    refine yields_expect_bind ht₁ ((yields_forInitializer ho).bind fun o' ho' => ?_)
    refine (yields_terminated (yields_expressionUnless hc ht₂ (by decide)) ht₂).bind fun c' hc' =>
      (yields_expressionUnless hc₁ ht₃ (by decide)).bind fun c₁' hc₁' => yields_expect_bind ht₃ ?_
    refine (hstmt hs hk₁ (by omega) (hr.imp_left (by omega))).map fun s' hs' => ?_
    rw [Stmt.Same, Stmt.unnumbered_forLoop, ho', hc', hc₁', hs', Stmt.unnumbered_forLoop]
  | _ => omega

theorem rereads_declarationRule {s : Stmt} (hw : Stmt.Written 0 s w) (hn : w.length ≤ n + 1)
    (hr : Blocked [.kwElse] r) : Yields (declarationRule stmt decl) w r s.Same := by
  have hstatement : Stmt.Written 1 s w → Yields (declarationRule stmt decl) w r s.Same := by
    intro hw
    refine yields_acceptIf_none ?_ (rereads_statement hstmt hdecl hw (Nat.le_refl _) hn (.inr hr))
    exact (hw.starts (List.Subset.refl _) (by omega)).blocked (by decide) r
  cases hw with
  | varDecl ht hname ho ht₁ =>
    refine yields_acceptAny_some ht (by decide) ?_
    simp only [Token.is_iff.1 ht]
    exact yields_varDecl hname ho ht₁
  | funDecl ht hf =>
    refine yields_acceptAny_some ht (by decide) ?_
    simp only [Token.is_iff.1 ht]
    exact (yields_function hdecl hf (Nat.le_of_succ_le_succ hn)).map
      fun _ h => congrArg Stmt.funDecl h
  | classDecl ht hname ho ht₁ hms ht₂ =>
    simp only [List.length_append, List.length_cons] at hn
    refine yields_acceptAny_some ht (by decide) ?_
    simp only [Token.is_iff.1 ht]
    exact yields_classDecl hdecl hname ho ht₁ hms (by omega) ht₂
  | _ => exact hstatement (by constructor <;> first | assumption | omega)

end Rules

/-- Statements and declarations are read, if no more rounds of the rules are needed than there
are tokens. -/
theorem rereads_rounds (budget : List Token) :
    RereadsStmts budget.length (statementUpTo budget) ∧
      RereadsDecls budget.length (declarationUpTo budget) := by
  induction budget with
  | nil =>
    refine ⟨fun j s w hw _ hn => ?_, fun s w hw hn => ?_⟩
    all_goals
      obtain ⟨t, v, rfl, -⟩ := hw.starts_declaration
      simp at hn
  | cons t budget ih =>
    refine ⟨rereads_statement ih.1 ih.2, fun s w hw hn r hr i => ?_⟩
    obtain ⟨s', k, hs', hsame⟩ := rereads_declarationRule ih.1 ih.2 hw hn hr i
    exact ⟨some s', k, hs'.recover, s', rfl, hsame⟩

/-- A written program is read again. -/
theorem yields_program {ss : List Stmt} {e : Token} (hw : InTurn (Stmt.Written 0) ss w)
    (he : e.isEnd = true) :
    Yields program w [e] fun ss' => Stmts.unnumbered ss' = Stmts.unnumbered ss := by
  refine (yields_many hw (Nat.le_refl _) (blocked_cons he (by decide) : Blocked [.kwElse] _)
    (fun s u hu _ _ r i hr => ?_) (fun s u hu => hu.starts_declaration) (by decide)
    fun _ i => reads_programItem_none.2 ⟨he, rfl⟩).map fun os hos => Stmts.unnumbered_of_kept hos
  obtain ⟨o, k, ho, hs⟩ := (rereads_rounds (u ++ r)).2 hu (by simp) hr i
  exact ⟨o, k, reads_programItem_some.2 ⟨hu.starts_declaration.peek (by decide) r i, ho⟩, hs⟩

end Parser

/-- Parsing undoes writing: a program that can be written is read again from its linearization, and
from whatever else it is written as. -/
theorem parse_written (fresh : NodeId) {ss : List Stmt} (hss : Stmts.Writable ss) {e : Token}
    (he : e.isEnd = true) {w : List Token}
    (hw : w = Stmts.tokens ss ∨ InTurn (Stmt.Written 0) ss w) :
    (parse fresh (w ++ [e])).faults = [] ∧
      Stmts.unnumbered (parse fresh (w ++ [e])).statements = Stmts.unnumbered ss := by
  have hw : InTurn (Stmt.Written 0) ss w := by
    rcases hw with rfl | hw
    · exact Stmts.written_tokens ss hss
    · exact hw
  obtain ⟨ss', k, hread, hsame⟩ := Parser.yields_program hw he fresh
  have hreply : Parser.program ⟨w ++ [e], fresh⟩ = ⟨some ss', ⟨[e], k⟩, []⟩ := hread
  simp only [parse, hreply, Option.getD_some, true_and]
  exact hsame

/-- A class with a superclass and both kinds of methods, conditionals in an assignment, and a loop
behind an `else`. -/
theorem parse_written_nested :
    let name (text : String) := Token.ofSymbol .identifier text 1
    let var (text : String) := Expr.var 7 (name text)
    let keep (s : Symbol) := Token.ofSymbol s "" 2
    let choice := Expr.conditional (.logical (var "a") (keep .kwOr)
        (.logical (var "b") (keep .kwAnd) (.binary (var "c") (keep .minus) (var "d"))))
      (.assign 7 (name "a") (.literal (.number 1.5))) (.conditional (var "b") (var "c") (var "d"))
    let ss : List Stmt := [
      .classDecl ⟨name "B", some (var "A"),
        [⟨name "init", [name "x"],
          [.expression (.set (.thisRef 7 (keep .kwThis)) (name "y") choice)]⟩],
        [⟨name "make", [], [.returnWith (keep .kwReturn) none]⟩]⟩,
      .ifElse (var "a") (.block [.ifThen (var "b") (.print (.unary (keep .minus) (var "c")))])
        (.whileLoop (.binary (.binary (var "a") (keep .minus) (var "b")) (keep .minus) (var "c"))
          (.expression (.call (.get (var "a") (name "m")) (keep .rightParen)
            [choice, .grouping choice])))]
    Stmts.Writable ss ∧ (parse 0 (Stmts.tokens ss ++ [.endMark 3])).faults = [] ∧
      Stmts.unnumbered (parse 0 (Stmts.tokens ss ++ [.endMark 3])).statements =
        Stmts.unnumbered ss := by
  intro name var keep choice ss
  have hss : Stmts.Writable ss := by
    simp [ss, choice, keep, var, name, Stmts.Writable, Stmt.Writable, FunctionDecls.Writable,
      FunctionDecl.Writable, Expr.Writable, Exprs.Writable, Token.tier,
      Token.ofSymbol, Token.is, Symbol.tier, Token.IsBinaryOperator, Parser.maxArity]
  exact ⟨hss, parse_written 0 hss rfl (.inl rfl)⟩

end Lox
