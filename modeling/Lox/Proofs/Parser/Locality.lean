import Lox.Proofs.Parser.Reading
import Lox.Proofs.Syntax.Relabeling
import Mathlib.Logic.Function.Iterate

/-!
# Reading no further than needed

A parser only goes forward, and what it answers rests on the tokens before the place where it
stops and on the one that stands there. So it answers the same before other tokens, with other
numbers for the nodes, and with other parsers in the place of those that it asks for the
expressions, statements and items inside, as long as these agree on the tokens that can be left
by then. Faults, and the tokens that are dropped behind them, are included.

Behind the last token a mark of the end is assumed, and nothing tells it from one that is there.
-/

namespace Lox

variable {α β : Type}

namespace Parser

variable {f : α → Parser β} {c : Cursor} {s : Symbol} {fault : SyntaxFault} {g' : β → β}
  {test : Token → Bool} {what : String} {budget : List Token}

/-- A parser never goes back, and never past a mark of the end. -/
def Forward (p : Parser α) : Prop :=
  ∀ c, ∃ read, c.rest = read ++ (p c).cursor.rest ∧ ∀ t ∈ read, t.isEnd = false

/-- A parser that has a result as `P` says has read a token. -/
def Advances (P : α → Prop) (p : Parser α) : Prop :=
  ∀ c a, (p c).result = some a → P a → (p c).cursor.rest.length < c.rest.length

theorem Forward.length_le {p : Parser α} (h : p.Forward) (c : Cursor) :
    (p c).cursor.rest.length ≤ c.rest.length := by
  obtain ⟨read, hread, -⟩ := h c
  rw [hread, List.length_append]
  exact Nat.le_add_left _ _

theorem Forward.length_left {p : Parser α} {w u w' : List Token} {i : NodeId} (h : p.Forward)
    (hrest : (p ⟨w ++ u, i⟩).cursor.rest = w' ++ u) : w'.length ≤ w.length := by
  have hle := h.length_le ⟨w ++ u, i⟩
  rw [hrest] at hle
  simpa only [List.length_append, Nat.add_le_add_iff_right] using hle

/-- A parser that stays where it is. -/
theorem forward_of_rest {p : Parser α} (h : ∀ c, (p c).cursor.rest = c.rest) : p.Forward :=
  fun c => ⟨[], (h c).symm, nofun⟩

theorem Forward.bind {p : Parser α} (hp : p.Forward) (hf : ∀ a, (f a).Forward) :
    (p >>= f).Forward := by
  intro c
  obtain ⟨u, hu, hend⟩ := hp c
  simp only [bind_apply]
  rcases hpc : p c with ⟨_ | a, c', faults⟩
  · rw [hpc] at hu
    exact ⟨u, hu, hend⟩
  · rw [hpc] at hu
    obtain ⟨v, hv, hend'⟩ := hf a c'
    refine ⟨u ++ v, by rw [hu, hv, List.append_assoc], fun t ht => ?_⟩
    exact (List.mem_append.1 ht).elim (hend t) (hend' t)

theorem Forward.map {p : Parser α} {f : α → β} (hp : p.Forward) : (f <$> p).Forward :=
  hp.bind fun _ => forward_of_rest fun _ => rfl

theorem map_apply (f : α → β) (p : Parser α) (c : Cursor) :
    (f <$> p) c = ⟨(p c).result.map f, (p c).cursor, (p c).faults⟩ := by
  change (p >>= fun a => pure (f a)) c = _
  simp only [bind_apply]
  rcases p c with ⟨_ | a, c', faults⟩
  · rfl
  · simp only [pure_apply, List.append_nil, Option.map_some]

theorem result_bind_eq_some {p : Parser α} {b : β} (h : ((p >>= f) c).result = some b) :
    ∃ a, (p c).result = some a ∧ (f a (p c).cursor).result = some b ∧
      ((p >>= f) c).cursor = (f a (p c).cursor).cursor := by
  simp only [bind_apply] at h ⊢
  rcases hpc : p c with ⟨_ | a, c', faults⟩
  · rw [hpc] at h
    cases h
  · rw [hpc] at h
    exact ⟨a, rfl, h, rfl⟩

theorem Advances.bind {p : Parser α} {P : β → Prop} (hp : Advances (fun _ => True) p)
    (hf : ∀ a, (f a).Forward) : Advances P (p >>= f) := by
  intro c b hb _
  obtain ⟨a, ha, -, hcursor⟩ := result_bind_eq_some hb
  rw [hcursor]
  exact Nat.lt_of_le_of_lt ((hf a).length_le _) (hp c a ha trivial)

theorem Advances.after {p : Parser α} {P : β → Prop} (hp : p.Forward) (hf : ∀ a, Advances P (f a)) :
    Advances P (p >>= f) := by
  intro c b hb hP
  obtain ⟨a, -, hb, hcursor⟩ := result_bind_eq_some hb
  rw [hcursor]
  exact Nat.lt_of_lt_of_le (hf a _ b hb hP) (hp.length_le c)

theorem advances_pure {P : α → Prop} {a : α} (h : ¬ P a) : Advances P (pure a) := by
  intro c b hb hP
  obtain rfl := Option.some.inj hb
  exact absurd hP h

/-! ## Answering alike -/

/-- A fault on another line. -/
def Diagnostic.relabel (r : Relabeling) : Diagnostic → Diagnostic
  | .syntactic site fault => .syntactic ⟨r.line site.line, site.landmark⟩ fault
  | d => d

/-- Two ways for the tokens to end that no parser tells apart. -/
def SameEnd (r : Relabeling) (u v : List Token) : Prop :=
  r.line 0 = 0 ∧ u = [] ∧ (v = [] ∨ v = [Token.endMark 0])

/-- Both lists start with an `else`, or neither does. -/
def SameElse (u v : List Token) : Prop :=
  (u.head?.any fun t => t.is .kwElse) = v.head?.any fun t => t.is .kwElse

/-- Behind what is read with this reply, `v` is as good as `u`: both end the tokens, or nothing is
wrong and the result is as `closes` says. In that case only an `else` makes a difference. -/
inductive Unseen (r : Relabeling) (closes : α → Prop) (reply : Reply α) (u v : List Token) : Prop
  | atEnd : SameEnd r u v → Unseen r closes reply u v
  | closed {a : α} : reply.result = some a → closes a → reply.faults = [] → SameElse u v →
      Unseen r closes reply u v

abbrev never (_ : α) : Prop := False

abbrev always (_ : α) : Prop := True

/-- On fewer than `n` tokens that stand on other lines and before `v`, `p'` answers as `p` does
before `u`, as long as `p` stops before `u`. Its result has other lines and numbers, and `g` is what
that makes of a result. -/
structure InStep (n : Nat) (r : Relabeling) (closes : α → Prop) (g : α → α) (p p' : Parser α) :
    Prop where
  forward : p.Forward
  reply : ∀ {w u v w' : List Token} {i : NodeId}, w.length < n →
    (p ⟨w ++ u, i⟩).cursor.rest = w' ++ u → w' ≠ [] ∨ Unseen r closes (p ⟨w ++ u, i⟩) u v →
      p' ⟨w.map (Token.relabel r) ++ v, i + r.shift⟩ =
        ⟨(p ⟨w ++ u, i⟩).result.map g,
          ⟨w'.map (Token.relabel r) ++ v, (p ⟨w ++ u, i⟩).cursor.fresh + r.shift⟩,
          (p ⟨w ++ u, i⟩).faults.map (Diagnostic.relabel r)⟩

variable {n m k : Nat} {r : Relabeling} {g : α → α} {p p' : Parser α} {closes : α → Prop}
  {closes' : β → Prop}

theorem Unseen.sameEnd {reply : Reply α} {u v : List Token} (h : Unseen r closes reply u v)
    (hno : ∀ a, reply.result = some a → ¬ closes a) : SameEnd r u v := by
  rcases h with h | ⟨ha, hcloses, -, -⟩
  · exact h
  · exact absurd hcloses (hno _ ha)

theorem advances_never : Advances never p := fun _ _ _ h => h.elim

/-- On no tokens at all, any two parsers answer alike. -/
theorem Forward.inStep (h : p.Forward) : InStep 0 r closes g p p' := ⟨h, nofun⟩

theorem InStep.mono (h : InStep n r closes g p p') (hm : m ≤ n) : InStep m r closes g p p' :=
  ⟨h.forward, fun hw => h.reply (Nat.lt_of_lt_of_le hw hm)⟩

/-- Where fewer results close. -/
theorem InStep.weaken {fewer : α → Prop} (h : InStep n r closes g p p')
    (hfewer : ∀ a, fewer a → closes a) : InStep n r fewer g p p' := by
  refine ⟨h.forward, fun hw hrest hbehind => h.reply hw hrest (hbehind.imp_right fun hunseen => ?_)⟩
  rcases hunseen with hend | ⟨ha, hcloses, hclean, helse⟩
  · exact .atEnd hend
  · exact .closed ha (hfewer _ hcloses) hclean helse

theorem InStep.unclosed (h : InStep n r closes g p p') : InStep n r never g p p' :=
  h.weaken fun _ h => h.elim

/-- Where no token is left before `u`, only the end is. -/
theorem InStep.one (h : p.Forward)
    (hend : ∀ {v : List Token} {i : NodeId}, SameEnd r [] v →
      p' ⟨v, i + r.shift⟩ = ⟨(p ⟨[], i⟩).result.map g, ⟨v, (p ⟨[], i⟩).cursor.fresh + r.shift⟩,
        (p ⟨[], i⟩).faults.map (Diagnostic.relabel r)⟩) :
    InStep 1 r never g p p' := by
  refine ⟨h, fun {w u v w' i} hw hrest hbehind => ?_⟩
  obtain rfl := List.length_eq_zero_iff.1 (Nat.lt_one_iff.1 hw)
  obtain rfl := List.length_eq_zero_iff.1 (Nat.le_zero.1 (h.length_left hrest))
  obtain ⟨hline, rfl, hv⟩ :=
    (hbehind.resolve_left (fun h => h rfl)).sameEnd fun _ _ h => h
  exact hend ⟨hline, rfl, hv⟩

theorem relabel_faults (k : Nat) (ds : List Diagnostic) :
    ds.map (Diagnostic.relabel (.move 0 k)) = ds := by
  have hid : ∀ d, Diagnostic.relabel (.move 0 k) d = d := fun d => by cases d <;> rfl
  rw [funext hid, List.map_id']

/-- On the same lines. -/
theorem InStep.reply_move (h : InStep n (.move 0 k) closes g p p') {w u v w' : List Token}
    {i : NodeId} (hw : w.length < n) (hrest : (p ⟨w ++ u, i⟩).cursor.rest = w' ++ u)
    (hbehind : w' ≠ [] ∨ SameEnd (.move 0 k) u v) :
    p' ⟨w ++ v, i + k⟩ =
      ⟨(p ⟨w ++ u, i⟩).result.map g, ⟨w' ++ v, (p ⟨w ++ u, i⟩).cursor.fresh + k⟩,
        (p ⟨w ++ u, i⟩).faults⟩ := by
  have hsame : ∀ ts : List Token, ts.map (Token.relabel (.move 0 k)) = ts := List.map_id'
  have hreply := h.reply hw hrest (hbehind.imp_right .atEnd)
  rwa [hsame, hsame, relabel_faults] at hreply

/-- With the same numbers and the same tokens behind, the answers are equal. -/
theorem InStep.eq_apply (h : InStep n (.move 0 0) closes g p p') (hg : ∀ a, g a = a)
    (hc : c.rest.length < n) : p' c = p c := by
  obtain ⟨rest, i⟩ := c
  have hrest : (p ⟨rest ++ [], i⟩).cursor.rest = (p ⟨rest, i⟩).cursor.rest ++ [] := by
    simp only [List.append_nil]
  have hreply := h.reply_move hc hrest (.inr ⟨rfl, rfl, .inl rfl⟩)
  simp only [List.append_nil, Nat.add_zero] at hreply
  rw [hreply, funext hg, Option.map_id']

/-- Parsers in step with the same one are equal on the tokens in question. -/
theorem InStep.eq_apply_of_common {q : Parser α} (h : InStep n (.move 0 0) closes g p q)
    (h' : InStep n (.move 0 0) closes g p' q) (hg : ∀ a, g a = a) (hc : c.rest.length < n) :
    p c = p' c :=
  (h.eq_apply hg hc).symm.trans (h'.eq_apply hg hc)

theorem peek_append {w u v : List Token} {i j : NodeId} (h : w ≠ [] ∨ SameEnd r u v) :
    Cursor.peek ⟨w.map (Token.relabel r) ++ v, j⟩ = (Cursor.peek ⟨w ++ u, i⟩).relabel r := by
  cases w with
  | cons t w => rfl
  | nil =>
    obtain ⟨hline, rfl, hv⟩ := h.resolve_left (fun h => h rfl)
    have hmark : (Token.endMark 0).relabel r = Token.endMark 0 := by
      rw [Token.relabel_endMark, hline]
    rcases hv with rfl | rfl
    · exact hmark.symm
    · exact hmark.symm

/-- A parser that looks at the next token and stays where it is. -/
theorem inStep_peek {f : Token → Option α × List Diagnostic}
    (h : ∀ t, f (t.relabel r) = ((f t).1.map g, (f t).2.map (Diagnostic.relabel r)))
    (hno : ∀ t a, (f t).1 = some a → ¬ closes a) :
    InStep n r closes g (fun c => ⟨(f c.peek).1, c, (f c.peek).2⟩)
      (fun c => ⟨(f c.peek).1, c, (f c.peek).2⟩) := by
  refine ⟨forward_of_rest fun _ => rfl, fun {w u v w' i} _ hrest hbehind => ?_⟩
  obtain rfl : w = w' := List.append_cancel_right hrest
  have hend := hbehind.imp_right fun hunseen => hunseen.sameEnd (hno _)
  simp only [peek_append (i := i) (j := i + r.shift) hend, h]

/-- A parser that answers the same everywhere. -/
theorem inStep_still {o : Option α} {ds : List Diagnostic} :
    InStep n r closes g (fun c => ⟨o, c, ds⟩)
      (fun c => ⟨o.map g, c, ds.map (Diagnostic.relabel r)⟩) := by
  refine ⟨forward_of_rest fun _ => rfl, fun {w u v w' i} _ hrest _ => ?_⟩
  obtain rfl : w = w' := List.append_cancel_right hrest
  rfl

theorem inStep_pure {a : α} : InStep n r closes g (pure a) (pure (g a)) :=
  inStep_still (o := some a)

theorem inStep_look : InStep n r never (Token.relabel r) look look :=
  inStep_peek (f := fun t => (some t, [])) (fun _ => rfl) fun _ _ _ h => h

theorem inStep_check : InStep n r never id (check s) (check s) :=
  inStep_peek (f := fun t => (some (t.is s), [])) (fun _ => rfl) fun _ _ _ h => h

theorem inStep_atEnd : InStep n r never id atEnd atEnd :=
  inStep_peek (f := fun t => (some t.isEnd, [])) (fun _ => rfl) fun _ _ _ h => h

theorem inStep_report {t : Token} {closes : Unit → Prop} :
    InStep n r closes id (report t fault) (report (t.relabel r) fault) :=
  inStep_still (o := some ())

theorem inStep_reject : InStep n r closes g (reject fault) (reject fault) :=
  inStep_peek (f := fun t => (none, [.syntactic t.site fault])) (fun _ => rfl)
    fun _ _ h => by cases h

theorem forward_giveUp : (giveUp : Parser α).Forward := forward_of_rest fun _ => rfl

theorem inStep_freshId {closes : NodeId → Prop} :
    InStep n r closes (· + r.shift) freshId freshId := by
  refine ⟨forward_of_rest fun _ => rfl, fun {w u v w' i} _ hrest _ => ?_⟩
  obtain rfl : w = w' := List.append_cancel_right hrest
  simp only [freshId, Option.map_some, Nat.add_right_comm, List.map_nil]

/-- Parsers one after the other. The second one needs to agree on fewer tokens where the first one
has read some. Where the first one does not close, the second one has to read a token to do so. -/
theorem InStep.bind_advancing {f' : α → Parser β} {d : α → Nat} (hp : InStep n r closes g p p')
    (hf : ∀ a, InStep (d a) r closes' g' (f a) (f' (g a)))
    (hd : ∀ c a, (p c).result = some a → n + (p c).cursor.rest.length ≤ d a + c.rest.length)
    (hcloses : ∀ a, closes a ∨ Advances closes' (f a)) :
    InStep n r closes' g' (p >>= f) (p' >>= f') := by
  refine ⟨hp.forward.bind fun a => (hf a).forward, fun {w u v w' i} hw hrest hbehind => ?_⟩
  have hbound := hd ⟨w ++ u, i⟩
  simp only [bind_apply] at hrest hbehind ⊢
  rcases hpc : p ⟨w ++ u, i⟩ with ⟨_ | a, ⟨rest, fresh⟩, faults⟩
  · simp only [hpc] at hrest hbehind
    have hend := hbehind.imp_right fun hunseen => hunseen.sameEnd fun _ h => by cases h
    rw [hp.reply hw (by rw [hpc]; exact hrest) (hend.imp_right .atEnd), hpc]
    rfl
  · simp only [hpc] at hrest hbehind hbound ⊢
    obtain ⟨read, hread, -⟩ := (hf a).forward ⟨rest, fresh⟩
    rw [hrest, ← List.append_assoc] at hread
    simp only at hread
    subst hread
    have hfirst : read ++ w' ≠ [] ∨ Unseen r closes (p ⟨w ++ u, i⟩) u v := by
      rcases hbehind with hne | hend | ⟨hb, hclosed, hclean, helse⟩
      · exact .inl (by simp [hne])
      · exact .inr (.atEnd hend)
      · rcases hcloses a with ha | hadvances
        · rw [hpc]
          exact .inr (.closed rfl ha (List.append_eq_nil_iff.1 hclean).1 helse)
        · have hlt := hadvances _ _ hb hclosed
          rw [hrest] at hlt
          refine .inl fun hnil => ?_
          obtain ⟨rfl, rfl⟩ := List.append_eq_nil_iff.1 hnil
          exact Nat.lt_irrefl _ hlt
    have hsecond : w' ≠ [] ∨ Unseen r closes' (f a ⟨read ++ w' ++ u, fresh⟩) u v := by
      rcases hbehind with hne | hend | ⟨hb, hclosed, hclean, helse⟩
      · exact .inl hne
      · exact .inr (.atEnd hend)
      · exact .inr (.closed hb hclosed (List.append_eq_nil_iff.1 hclean).2 helse)
    have hlen : (read ++ w').length < d a := by
      have := hbound a rfl
      simp only [List.length_append] at this ⊢
      omega
    rw [hp.reply hw (by rw [hpc]) hfirst, hpc]
    simp only [Option.map_some, (hf a).reply hlen hrest hsecond]
    rw [List.map_append]

/-- Parsers one after the other, where it does not matter what closes. -/
theorem InStep.bind {f' : α → Parser β} (hp : InStep n r never g p p')
    (hf : ∀ a, InStep n r never g' (f a) (f' (g a))) : InStep n r never g' (p >>= f) (p' >>= f') :=
  hp.bind_advancing hf (fun c _ _ => Nat.add_le_add_left (hp.forward.length_le c) n)
    fun _ => .inr advances_never

/-- What closes stands behind what closes. -/
theorem InStep.next {f' : α → Parser β} (hp : InStep n r always g p p')
    (hf : ∀ a, InStep n r closes' g' (f a) (f' (g a))) :
    InStep n r closes' g' (p >>= f) (p' >>= f') :=
  hp.bind_advancing hf (fun c _ _ => Nat.add_le_add_left (hp.forward.length_le c) n)
    fun _ => .inl trivial

theorem InStep.map {f f' : α → β} (hp : InStep n r closes g p p')
    (hg : ∀ a, g' (f a) = f' (g a)) (hcloses : ∀ a, closes' (f a) → closes a) :
    InStep n r closes' g' (f <$> p) (f' <$> p') := by
  refine hp.bind_advancing (d := fun _ => n) (fun a => ?_)
    (fun c _ _ => Nat.add_le_add_left (hp.forward.length_le c) n) fun a => ?_
  · rw [Function.comp_apply, Function.comp_apply, ← hg]
    exact inStep_pure
  · by_cases ha : closes' (f a)
    · exact .inl (hcloses a ha)
    · exact .inr (advances_pure ha)

/-! ## Reading a token -/

/-- A test of the kind of a token that no mark of the end passes. -/
structure ByKind (test : Token → Bool) : Prop where
  refusesEnd : ∀ t : Token, t.isEnd = true → test t = false
  kind : ∀ t u : Token, t.kind = u.kind → test t = test u

theorem byKind_any {ss : List Symbol} (h : .eof ∉ ss) : ByKind fun t => ss.any t.is := by
  refine ⟨fun t ht => ?_, fun t u htu => ?_⟩
  · rw [List.any_eq_false]
    intro s hs
    rw [Token.is_eq_false ht fun heq => h (heq ▸ hs)]
    exact Bool.false_ne_true
  · have hfun : t.is = u.is := funext fun s => by simp only [Token.is, htu]
    rw [hfun]

theorem byKind_is (h : s ≠ .eof) : ByKind fun t => t.is s :=
  ⟨fun _ ht => Token.is_eq_false ht h.symm, fun t u htu => by simp only [Token.is, htu]⟩

theorem forward_acceptIf (htest : ByKind test) : (acceptIf test).Forward := by
  rintro ⟨_ | ⟨t, rest⟩, fresh⟩
  · exact ⟨[], rfl, nofun⟩
  · simp only [acceptIf]
    split
    · rename_i ht
      refine ⟨[t], rfl, fun u hu => ?_⟩
      obtain rfl := List.mem_singleton.1 hu
      cases hend : u.isEnd with
      | false => rfl
      | true => rw [htest.refusesEnd u hend] at ht; cases ht
    · exact ⟨[], rfl, nofun⟩

theorem advances_acceptIf : Advances (fun o => o.isSome = true) (acceptIf test) := by
  rintro ⟨_ | ⟨t, rest⟩, fresh⟩ o ho hsome
  · obtain rfl := Option.some.inj ho
    cases hsome
  · simp only [acceptIf] at ho ⊢
    split at ho
    · simp only [*, if_true]
      exact Nat.lt_succ_self _
    · obtain rfl := Option.some.inj ho
      cases hsome

theorem acceptIf_of_head {ts : List Token} {i : NodeId} (h : ts.head?.any test = false) :
    acceptIf test ⟨ts, i⟩ = ⟨some none, ⟨ts, i⟩, []⟩ := by
  cases ts with
  | nil => rfl
  | cons t ts => simp [acceptIf, show test t = false from h]

/-- A token that passes a test closes. That there is none may depend on what stands behind. -/
theorem inStep_acceptIf_of {closes : Option Token → Prop} (htest : ByKind test)
    (hcloses : closes none → ∀ u v, SameElse u v → u.head?.any test = v.head?.any test) :
    InStep n r closes (Option.map (Token.relabel r)) (acceptIf test) (acceptIf test) := by
  refine ⟨forward_acceptIf htest, fun {w u v w' i} _ hrest hbehind => ?_⟩
  cases w with
  | cons t w =>
    have hkind : test (t.relabel r) = test t := htest.kind _ _ rfl
    simp only [List.cons_append, List.map_cons, acceptIf, hkind] at hrest ⊢
    split at hrest
    · rename_i ht
      obtain rfl : w = w' := List.append_cancel_right hrest
      simp only [ht, if_true, Option.map_some, List.map_nil]
    · rename_i ht
      obtain rfl : t :: w = w' := List.append_cancel_right hrest
      simp only [ht, Bool.false_eq_true, if_false, Option.map_some, Option.map_none,
        List.map_cons, List.cons_append, List.map_nil]
  | nil =>
    have hle := (forward_acceptIf htest).length_left hrest
    obtain rfl := List.length_eq_zero_iff.1 (Nat.le_zero.1 hle)
    have hu : u.head?.any test = false := by
      cases u with
      | nil => rfl
      | cons t u =>
        simp only [List.nil_append, acceptIf] at hrest
        split at hrest
        · exact absurd (congrArg List.length hrest) (by simp)
        · rename_i ht
          exact Bool.eq_false_iff.2 ht
    rw [List.nil_append, acceptIf_of_head hu] at hbehind
    rw [List.nil_append, acceptIf_of_head hu]
    have hv : v.head?.any test = false := by
      rcases hbehind.resolve_left (fun h => h rfl) with ⟨-, -, rfl | rfl⟩ | ⟨ho, hclosed, -, helse⟩
      · rfl
      · exact htest.refusesEnd _ rfl
      · obtain rfl := Option.some.inj ho
        exact (hcloses hclosed u v helse).symm.trans hu
    exact acceptIf_of_head hv

theorem inStep_acceptIf (htest : ByKind test) :
    InStep n r (fun o => o.isSome = true) (Option.map (Token.relabel r)) (acceptIf test)
      (acceptIf test) :=
  inStep_acceptIf_of htest fun h => by cases h

/-- Of an `else`, it is known whether it stands behind. -/
theorem inStep_else :
    InStep n r always (Option.map (Token.relabel r)) (accept .kwElse) (accept .kwElse) :=
  inStep_acceptIf_of (byKind_is (by decide)) fun _ _ _ h => h

/-- A branch on whether the next token passes a test. Behind the token, one less is left. -/
theorem inStep_acceptIf_bind_closing {f f' : Option Token → Parser α} (htest : ByKind test)
    (hnone : InStep n r closes g (f none) (f' none)) (hadvances : Advances closes (f none))
    (hm : n ≤ m + 1)
    (hsome : ∀ t, InStep m r closes g (f (some t)) (f' (some (t.relabel r)))) :
    InStep n r closes g (acceptIf test >>= f) (acceptIf test >>= f') := by
  refine (inStep_acceptIf htest).bind_advancing (d := fun o => if o.isSome then m else n) ?_ ?_ ?_
  · intro o
    cases o with
    | none => exact hnone
    | some t => exact hsome t
  · rintro ⟨_ | ⟨t, rest⟩, fresh⟩ o ho
    · obtain rfl := Option.some.inj ho
      exact Nat.le_refl _
    · simp only [acceptIf] at ho ⊢
      split at ho
      · obtain rfl := Option.some.inj ho
        simp only [*, if_true, Option.isSome_some, List.length_cons]
        omega
      · obtain rfl := Option.some.inj ho
        simp [*]
  · intro o
    cases o with
    | none => exact .inr hadvances
    | some t => exact .inl rfl

theorem inStep_acceptIf_bind {f f' : Option Token → Parser α} (htest : ByKind test)
    (hnone : InStep n r never g (f none) (f' none)) (hm : n ≤ m + 1)
    (hsome : ∀ t, InStep m r never g (f (some t)) (f' (some (t.relabel r)))) :
    InStep n r never g (acceptIf test >>= f) (acceptIf test >>= f') :=
  inStep_acceptIf_bind_closing htest hnone advances_never hm hsome

theorem advances_acceptIf_bind {f : Option Token → Parser α} {P : α → Prop}
    (hnone : Advances P (f none)) (hsome : ∀ t, (f (some t)).Forward) :
    Advances P (acceptIf test >>= f) := by
  rintro ⟨_ | ⟨t, rest⟩, fresh⟩ a ha hP
  · obtain ⟨o, ho, ha, hcursor⟩ := result_bind_eq_some ha
    obtain rfl := Option.some.inj ho
    rw [hcursor]
    exact hnone _ a ha hP
  · obtain ⟨o, ho, ha, hcursor⟩ := result_bind_eq_some ha
    rw [hcursor]
    simp only [acceptIf] at ho ha ⊢
    split at ho
    · obtain rfl := Option.some.inj ho
      simp only [*, if_true]
      exact Nat.lt_succ_of_le ((hsome t).length_le _)
    · obtain rfl := Option.some.inj ho
      simp only [*, Bool.false_eq_true, if_false] at ha ⊢
      exact hnone _ a ha hP

theorem inStep_expect {closes : Token → Prop} (hs : s ≠ .eof) :
    InStep n r closes (Token.relabel r) (expect s what) (expect s what) :=
  inStep_acceptIf_bind_closing (byKind_is hs) inStep_reject (fun _ _ h => by cases h)
    (Nat.le_succ n) fun _ => inStep_pure

theorem forward_expect (hs : s ≠ .eof) : (expect s what).Forward :=
  InStep.forward (inStep_expect hs : InStep 0 .erase never _ _ (expect s what))

theorem advances_expect {P : Token → Prop} : Advances P (expect s what) :=
  advances_acceptIf_bind nofun fun _ => forward_of_rest fun _ => rfl

/-- What closes stands behind a token that has to be there, whatever is before it. -/
theorem InStep.bind_expect {f f' : α → Token → Parser β} (hs : s ≠ .eof)
    (hp : InStep n r closes g p p')
    (hf : ∀ a t, InStep n r closes' g' (f a t) (f' (g a) (t.relabel r))) :
    InStep n r closes' g' (p >>= fun a => expect s what >>= f a)
      (p' >>= fun a => expect s what >>= f' a) :=
  hp.bind_advancing (fun a => (inStep_expect hs).next (hf a))
    (fun c _ _ => Nat.add_le_add_left (hp.forward.length_le c) n)
    fun a => .inr (advances_expect.bind fun t => (hf a t).forward)

/-! ## Repetition -/

/-- An item of a repetition takes a token, and there is none where no token is left. -/
structure Repeats (item : Nat → Parser (Option α)) : Prop where
  advances : ∀ index, Advances (fun o => o.isSome = true) (item index)
  stops : ∀ index i, item index ⟨[], i⟩ = ⟨some none, ⟨[], i⟩, []⟩

/-- One round of a repetition, from the parser of the other items. -/
def round (item : Nat → Parser (Option α)) (others : Nat → Parser (List α)) (index : Nat) :
    Parser (List α) := do
  match ← item index with
  | none => pure []
  | some a =>
    let others ← others (index + 1)
    pure (a :: others)

section Items

variable {item item' : Nat → Parser (Option α)}

theorem forward_manyUpTo (h : ∀ index, (item index).Forward) (budget : List Token) (index : Nat) :
    (manyUpTo item budget index).Forward := by
  induction budget generalizing index with
  | nil => exact forward_of_rest fun _ => rfl
  | cons t budget ih =>
    refine (h index).bind fun o => ?_
    cases o with
    | none => exact forward_of_rest fun _ => rfl
    | some a => exact (ih (index + 1)).bind fun _ => forward_of_rest fun _ => rfl

theorem Repeats.manyUpTo_nil (hitem : Repeats item) (budget : List Token) (index : Nat)
    (i : NodeId) : manyUpTo item budget index ⟨[], i⟩ = ⟨some [], ⟨[], i⟩, []⟩ := by
  cases budget with
  | nil => rfl
  | cons t budget => simp only [manyUpTo, bind_apply, hitem.stops]; rfl

/-- A repetition is its rounds, and there are never more of them than tokens. -/
theorem Repeats.rounds_eq (hitem : Repeats item) (bottom : Nat → Parser (List α)) (index : Nat)
    (hbudget : c.rest.length ≤ budget.length) (hn : c.rest.length < n) :
    (round item)^[n] bottom index c = manyUpTo item budget index c := by
  induction n generalizing budget index c with
  | zero => exact absurd hn (Nat.not_lt_zero _)
  | succ n ih =>
    rw [Function.iterate_succ_apply']
    cases budget with
    | nil =>
      obtain ⟨_ | ⟨t, rest⟩, fresh⟩ := c
      · simp only [round, bind_apply, hitem.stops]
        rfl
      · cases hbudget
    | cons t budget =>
      have hadvances := hitem.advances index c
      simp only [round, manyUpTo, bind_apply]
      rcases hic : item index c with ⟨_ | _ | a, c', faults⟩
      · rfl
      · rfl
      · rw [hic] at hadvances
        have hlt : c'.rest.length < c.rest.length := hadvances (some a) rfl rfl
        simp only [List.length_cons] at hbudget
        simp only [bind_apply, ih (index + 1) (show c'.rest.length ≤ budget.length by omega)
          (show c'.rest.length < n by omega)]

/-- More rounds than there are tokens change nothing. -/
theorem Repeats.manyUpTo_eq (hitem : Repeats item) (index : Nat)
    (hbudget : c.rest.length ≤ budget.length) :
    manyUpTo item budget index c = manyUpTo item c.rest index c :=
  (hitem.rounds_eq (fun _ => giveUp) index hbudget (Nat.lt_succ_self _)).symm.trans
    (hitem.rounds_eq (fun _ => giveUp) index (Nat.le_refl _) (Nat.lt_succ_self _))

variable {closes : Option α → Prop} (hitem : Repeats item)
  (h : ∀ index, InStep n r closes (Option.map g) (item index) (item' index))
include hitem h

theorem inStep_round {others others' : Nat → Parser (List α)} (hm : n ≤ m + 1)
    (hothers : ∀ index, InStep m r never (List.map g) (others index) (others' index)) (index : Nat) :
    InStep n r never (List.map g) (round item others index) (round item' others' index) := by
  refine (h index).bind_advancing (d := fun o => if o.isSome then m else n) ?_ ?_
    fun _ => .inr advances_never
  · intro o
    cases o with
    | none => exact inStep_pure (a := [])
    | some a => exact (hothers (index + 1)).bind fun as => inStep_pure (a := a :: as)
  · intro c o ho
    cases o with
    | none => exact Nat.add_le_add_left ((h index).forward.length_le c) n
    | some a =>
      have := hitem.advances index c (some a) ho rfl
      simp only [Option.isSome_some, if_true]
      omega

/-- Where no token is left, a round answers that there are no items. -/
theorem inStep_round_last {others' : Nat → Parser (List α)} (hn : 0 < n) (index : Nat) :
    InStep 1 r never (List.map g) (pure []) (round item' others' index) := by
  refine .one (forward_of_rest fun _ => rfl) fun {v i} hv => ?_
  have hnil : (item index ⟨[] ++ [], i⟩).cursor.rest = [] ++ [] := by
    rw [List.append_nil, hitem.stops]
  have hlen : ([] : List Token).length < n := hn
  have hreply := (h index).reply hlen hnil (.inr (.atEnd hv))
  rw [List.append_nil, hitem.stops, List.map_nil, List.nil_append] at hreply
  simp only [round, bind_apply, hreply]
  rfl

/-- A repetition of items in step, each with as many rounds as there are tokens. -/
theorem inStep_manyUpTo {budget' : List Token} (index : Nat) (hn : m ≤ n)
    (hbudget : m ≤ budget.length + 1) (hbudget' : m ≤ budget'.length + 1) :
    InStep m r never (List.map g) (manyUpTo item budget index) (manyUpTo item' budget' index) := by
  have hforward := forward_manyUpTo (fun i => (h i).forward)
  induction budget' generalizing m budget index with
  | nil =>
    refine InStep.mono (.one (hforward budget index) fun _ => ?_) hbudget'
    rw [hitem.manyUpTo_nil]
    rfl
  | cons t' budget' ih =>
    cases m with
    | zero => exact (hforward budget index).inStep
    | succ m =>
      cases budget with
      | nil => exact (inStep_round_last hitem h (by omega) index).mono (by simpa using hbudget)
      | cons t budget =>
        refine inStep_round hitem (fun i => (h i).mono hn) (Nat.le_refl _) (fun i => ?_) index
        exact ih i (by omega) (by simpa using hbudget) (by simpa using hbudget')

end Items

/-- A parser that has as many rounds as there are tokens. -/
theorem inStep_ofBudget {q : List Token → Parser α}
    (h : ∀ budget m, m ≤ n → m ≤ budget.length + 1 → InStep m r closes g (q budget) p') :
    InStep n r closes g (fun c => q c.rest c) p' := by
  refine ⟨fun c => (h c.rest 0 (Nat.zero_le _) (Nat.zero_le _)).forward c,
    fun {w u v w' i} hw hrest hbehind => ?_⟩
  exact (h (w ++ u) (w.length + 1) hw (by simp)).reply (Nat.lt_succ_self _) hrest hbehind

theorem inStep_toBudget {q : List Token → Parser α} (hp : p.Forward)
    (h : ∀ budget m, m ≤ n → m ≤ budget.length + 1 → InStep m r closes g p (q budget)) :
    InStep n r closes g p (fun c => q c.rest c) := by
  refine ⟨hp, fun {w u v w' i} hw hrest hbehind => ?_⟩
  exact (h (w.map (Token.relabel r) ++ v) (w.length + 1) hw (by simp)).reply
    (Nat.lt_succ_self _) hrest hbehind

theorem inStep_many {item item' : Nat → Parser (Option α)} {closes : Option α → Prop}
    (hitem : Repeats item)
    (h : ∀ index, InStep n r closes (Option.map g) (item index) (item' index)) :
    InStep n r never (List.map g) (many item) (many item') :=
  inStep_ofBudget fun budget _ hn hbudget =>
    inStep_toBudget (forward_manyUpTo (fun i => (h i).forward) budget 0) fun _ _ hm hbudget' =>
      inStep_manyUpTo hitem h 0 (Nat.le_trans hm hn) (Nat.le_trans hm hbudget) hbudget'

theorem inStep_limited (h : InStep n r never g p p') (index : Nat) :
    InStep n r never g (limited fault p index) (limited fault p' index) := by
  unfold limited
  simp only
  split
  · exact inStep_look.bind fun _ => inStep_report.bind fun _ => h
  · exact h

theorem repeats_commaItem {item : Nat → Parser α} (h : ∀ index, (item index).Forward) :
    Repeats (commaItem item) where
  advances index := advances_acceptIf_bind (advances_pure Bool.false_ne_true) fun _ =>
    (h (index + 1)).map
  stops _ _ := rfl

theorem inStep_commaItem {item item' : Nat → Parser α}
    (h : ∀ index, InStep n r never g (item index) (item' index)) (index : Nat) :
    InStep n r never (Option.map g) (commaItem item index) (commaItem item' index) :=
  inStep_acceptIf_bind (byKind_is (by decide)) inStep_pure (Nat.le_succ n) fun _ =>
    (h (index + 1)).map (fun _ => rfl) fun _ h => h

theorem inStep_commaList {item item' : Nat → Parser α}
    (h : ∀ index, InStep n r never g (item index) (item' index)) :
    InStep n r never (List.map g) (commaList item) (commaList item') := by
  refine inStep_check.bind fun b => ?_
  cases b with
  | true => exact inStep_pure (a := [])
  | false =>
    refine (h 0).bind fun first => InStep.bind (g := List.map g) ?_ fun others =>
      inStep_pure (a := first :: others)
    exact inStep_many (repeats_commaItem fun index => (h index).forward) (inStep_commaItem h)

end Parser
end Lox
