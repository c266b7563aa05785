import Lox.Proofs.Parser.Termination
import Lox.Proofs.Syntax.Grammar

/-!
# What parsers give

What is proved of a parser relates the tokens that it has read, its result, and the number behind
its last node. One such relation holds whatever is reported, and another one if nothing is. There is
one rule for each way of making parsers from parsers.

The rules of expressions and statements refer to each other only behind a token that they have
read. So they may be taken as rounds above a parser that rejects all there is, and then none of them
gives up without a report.
-/

namespace Lox

/-- The tokens that are left are as `K` says. -/
def Cursor.Holds (K : Token → Prop) (c : Cursor) : Prop := ∀ t ∈ c.rest, K t

/-- So is the next one, unless it is the mark of the end that is assumed behind them. -/
theorem Cursor.Holds.peek {K : Token → Prop} {c : Cursor} (h : c.Holds K) :
    K c.peek ∨ c.peek = Token.endMark 0 := by
  obtain ⟨_ | ⟨t, rest⟩, fresh⟩ := c
  · exact .inr rfl
  · exact .inl (h t List.mem_cons_self)

namespace Parser

variable {α β : Type} {K : Token → Prop} {i k : NodeId} {s : Symbol} {what : String}
  {fault : SyntaxFault} {test : Token → Bool} {p : Parser α} {e : Ebnf} {w : List Token} {as : List α}
  {P R : List Token → α → NodeId → Prop} {P' R' : List Token → β → NodeId → Prop}

/-- What a parser may answer: it goes forward by the tokens `w`, and the next number does not go
back. It reports faults of the grammar at tokens that `K` says or at the mark of the end that is
assumed, and gives up only with a report. Of the tokens, the result and the next number `P` holds,
and so does `R` if nothing is reported. -/
structure Given (K : Token → Prop) (P R : List Token → α → NodeId → Prop) (c : Cursor)
    (reply : Reply α) (w : List Token) : Prop where
  rest : c.rest = w ++ reply.cursor.rest
  le : c.fresh ≤ reply.cursor.fresh
  faults : ∀ d ∈ reply.faults, ∃ t fault, (K t ∨ t = Token.endMark 0) ∧ d = .syntactic t.site fault
  heard : reply.result = none → reply.faults ≠ []
  result : ∀ a ∈ reply.result, P w a reply.cursor.fresh
  silent : reply.faults = [] → ∀ a ∈ reply.result, R w a reply.cursor.fresh

/-- With `i` as the next number, `p` gives what `P` says, and what `R` says if it reports nothing. -/
def Gives (K : Token → Prop) (i : NodeId) (P R : List Token → α → NodeId → Prop) (p : Parser α) :
    Prop :=
  ∀ c : Cursor, c.Holds K → c.fresh = i → ∃ w, Given K P R c (p c) w

/-- What is read without a report. -/
theorem Gives.reads {c c' : Cursor} {a : α} (h : Gives (fun _ => True) c.fresh P R p)
    (hr : p.Reads c a c') : ∃ w, c.rest = w ++ c'.rest ∧ R w a c'.fresh := by
  obtain ⟨w, hw⟩ := h c (fun _ _ => trivial) rfl
  rw [show p c = ⟨some a, c', []⟩ from hr] at hw
  exact ⟨w, hw.rest, hw.silent rfl a rfl⟩

/-! ## Sequencing -/

/-- A parser that reads nothing and reports nothing. -/
theorem given_of_still {c : Cursor} {a : α} {k : NodeId} (hle : c.fresh ≤ k) (hP : P [] a k)
    (hR : R [] a k) : Given K P R c ⟨some a, { c with fresh := k }, []⟩ [] where
  rest := rfl
  le := hle
  faults := List.forall_mem_nil _
  heard h := by cases h
  result := by
    rintro _ ⟨⟩
    exact hP
  silent := by
    rintro - _ ⟨⟩
    exact hR

theorem gives_pure {a : α} (hP : P [] a i) (hR : R [] a i) : Gives K i P R (pure a) := by
  rintro c - rfl
  exact ⟨[], given_of_still (Nat.le_refl _) hP hR⟩

/-- Parsers one after the other. -/
theorem Gives.bind {f : α → Parser β} (hp : Gives K i P R p)
    (hf : ∀ u a j, P u a j →
      Gives K j (fun v b => P' (u ++ v) b) (fun v b k => R u a j → R' (u ++ v) b k) (f a)) :
    Gives K i P' R' (p >>= f) := by
  intro c hc hi
  obtain ⟨u, hu⟩ := hp c hc hi
  simp only [bind_apply]
  rcases hpc : p c with ⟨_ | a, c', faults⟩
  · rw [hpc] at hu
    change ∃ w, Given K P' R' c ⟨none, c', faults⟩ w
    exact ⟨u, hu.rest, hu.le, hu.faults, fun _ => hu.heard rfl, fun _ h => (by cases h),
      fun _ _ h => by cases h⟩
  · rw [hpc] at hu
    have hc' : c'.Holds K := fun t ht => hc t (hu.rest ▸ List.mem_append_right _ ht)
    obtain ⟨v, hv⟩ := hf u a _ (hu.result a rfl) c' hc' rfl
    refine ⟨u ++ v, ?_, Nat.le_trans hu.le hv.le, List.forall_mem_append.2 ⟨hu.faults, hv.faults⟩,
      fun h hnil => hv.heard h (List.append_eq_nil_iff.1 hnil).2, hv.result, fun hnil b hb => ?_⟩
    · rw [hu.rest, List.append_assoc]
      exact congrArg _ hv.rest
    · obtain ⟨hnil, hnil'⟩ := List.append_eq_nil_iff.1 hnil
      exact hv.silent hnil' b hb (hu.silent hnil a rfl)

theorem Gives.mono {P₁ R₁ : List Token → α → NodeId → Prop} (hp : Gives K i P R p)
    (hP : ∀ w a k, P w a k → P₁ w a k) (hR : ∀ w a k, R w a k → R₁ w a k) :
    Gives K i P₁ R₁ p := by
  intro c hc hi
  obtain ⟨w, hw⟩ := hp c hc hi
  exact ⟨w, { hw with
    result := fun a ha => hP w a _ (hw.result a ha)
    silent := fun hnil a ha => hR w a _ (hw.silent hnil a ha) }⟩

theorem Gives.map {f : α → β} (hp : Gives K i P R p) (hP : ∀ w a k, P w a k → P' w (f a) k)
    (hR : ∀ w a k, R w a k → R' w (f a) k) : Gives K i P' R' (p >>= fun a => pure (f a)) :=
  hp.bind fun w a k h => gives_pure (by simpa using hP w a k h) (by simpa using hR w a k)

/-- A parser that only looks ahead. -/
theorem gives_look_bind {f : α → Parser β} (hp : ∀ c, ∃ a, p c = ⟨some a, c, []⟩)
    (hf : ∀ a, Gives K i P' R' (f a)) : Gives K i P' R' (p >>= f) := by
  intro c hc hi
  obtain ⟨a, ha⟩ := hp c
  simp only [bind_apply, ha]
  exact hf a c hc hi

theorem gives_freshId_bind {f : NodeId → Parser β} (hf : Gives K (i + 1) P' R' (f i)) :
    Gives K i P' R' (freshId >>= f) := by
  have hid : Gives K i (fun w a k => w = [] ∧ a = i ∧ k = i + 1) (fun _ _ _ => True) freshId := by
    rintro c - rfl
    exact ⟨[], given_of_still (Nat.le_succ _) ⟨rfl, rfl, rfl⟩ trivial⟩
  refine hid.bind ?_
  rintro _ _ _ ⟨rfl, rfl, rfl⟩
  exact hf.mono (fun _ _ _ h => h) fun _ _ _ h _ => h

/-- Behind a report, what is given without one does not matter. -/
theorem gives_report_bind {t : Token} {f : Unit → Parser β} (ht : K t ∨ t = Token.endMark 0)
    (hf : Gives K i P' (fun _ _ _ => True) (f ())) : Gives K i P' R' (report t fault >>= f) := by
  have hreport : Gives K i (fun w _ k => w = [] ∧ k = i) (fun _ _ _ => False) (report t fault) := by
    rintro c - rfl
    refine ⟨[], rfl, Nat.le_refl _, ?_, fun h => (by cases h), fun _ _ => ⟨rfl, rfl⟩,
      fun h => by cases h⟩
    simpa only [report, List.forall_mem_singleton] using ⟨t, fault, ht, rfl⟩
  refine hreport.bind ?_
  rintro _ _ _ ⟨rfl, rfl⟩
  exact hf.mono (fun _ _ _ h => h) fun _ _ _ _ h => h.elim

theorem gives_reject : Gives K i P R (reject fault) := by
  intro c hc hi
  refine ⟨[], rfl, Nat.le_refl _, ?_, fun _ => List.cons_ne_nil _ _, fun _ h => (by cases h),
    fun h => by cases h⟩
  simpa only [reject, List.forall_mem_singleton] using ⟨c.peek, fault, hc.peek, rfl⟩

/-! ## Reading a token -/

/-- What is answered behind a token, with the token. -/
theorem Gives.behind {t : Token} {rest : List Token} {reply : Reply α}
    (hp : Gives K i (fun v a => P (t :: v) a) (fun v a => R (t :: v) a) p)
    (hc : Cursor.Holds K ⟨t :: rest, i⟩) (h : reply = p ⟨rest, i⟩) :
    ∃ w, Given K P R ⟨t :: rest, i⟩ reply w := by
  subst h
  obtain ⟨w, hw⟩ := hp ⟨rest, i⟩ (fun t ht => hc t (List.mem_cons_of_mem _ ht)) rfl
  exact ⟨t :: w, { hw with rest := congrArg (t :: ·) hw.rest }⟩

/-- A branch on whether the next token passes a test. -/
theorem gives_acceptIf_bind {f : Option Token → Parser β} (hnone : Gives K i P' R' (f none))
    (hsome : ∀ t, K t → test t = true →
      Gives K i (fun v b => P' (t :: v) b) (fun v b => R' (t :: v) b) (f (some t))) :
    Gives K i P' R' (acceptIf test >>= f) := by
  rintro ⟨_ | ⟨t, rest⟩, fresh⟩ hc rfl
  · exact hnone _ hc rfl
  · cases ht : test t with
    | true =>
      refine (hsome t (hc t List.mem_cons_self) ht).behind hc ?_
      simp only [bind_apply, acceptIf, ht, if_true, List.nil_append]
    | false =>
      have hreply : (acceptIf test >>= f) ⟨t :: rest, fresh⟩ = f none ⟨t :: rest, fresh⟩ := by
        simp only [bind_apply, acceptIf, ht, Bool.false_eq_true, if_false, List.nil_append]
      rw [hreply]
      exact hnone _ hc rfl

/-- A token that passes a test, or nothing. -/
theorem gives_acceptIf {Q : NodeId → List Token → Option Token → NodeId → Prop}
    (hnone : Q i [] none i) (hsome : ∀ t, K t → test t = true → Q i [t] (some t) i) :
    Gives K i (Q i) (Q i) (acceptIf test) := by
  rintro ⟨_ | ⟨t, rest⟩, fresh⟩ hc rfl
  · exact gives_pure hnone hnone _ hc rfl
  · cases ht : test t with
    | true =>
      have hQ := hsome t (hc t List.mem_cons_self) ht
      exact (gives_pure hQ hQ).behind hc (by simp [acceptIf, ht])
    | false =>
      simp only [acceptIf, ht]
      exact gives_pure hnone hnone _ hc rfl

theorem gives_expect_bind {f : Token → Parser β}
    (hf : ∀ t, K t → t.is s = true →
      Gives K i (fun v b => P' (t :: v) b) (fun v b => R' (t :: v) b) (f t)) :
    Gives K i P' R' (expect s what >>= f) := by
  have hexpect : Gives K i (fun w t k => w = [t] ∧ k = i ∧ K t ∧ t.is s = true)
      (fun _ _ _ => True) (expect s what) :=
    gives_acceptIf_bind gives_reject fun t hK ht => gives_pure ⟨rfl, rfl, hK, ht⟩ trivial
  refine hexpect.bind ?_
  rintro _ t _ ⟨rfl, rfl, hK, ht⟩
  exact (hf t hK ht).mono (fun _ _ _ h => h) fun _ _ _ h _ => h

/-- What is read where a fault does not end all: it is left out, with a report. -/
theorem gives_recover (h : Gives K i P R p) :
    Gives K i (fun w o k => i ≤ k ∧ ∀ a ∈ o, P w a k) (fun w o k => ∃ a, o = some a ∧ R w a k)
      (recover p) := by
  rintro c hc rfl
  obtain ⟨w, hw⟩ := h c hc rfl
  rw [recover_apply]
  cases hr : (p c).result with
  | some a =>
    refine ⟨w, hw.rest, hw.le, hw.faults, fun h => (by cases h), ?_, fun hnil => ?_⟩
    · rintro _ ⟨⟩
      exact ⟨hw.le, fun b hb => hw.result b (hr.trans hb)⟩
    · rintro _ ⟨⟩
      exact ⟨a, rfl, hw.silent hnil a hr⟩
  | none =>
    obtain ⟨dropped, hdropped, -⟩ := forward_synchronize (p c).cursor.rest
    refine ⟨w ++ dropped, ?_, hw.le, hw.faults, fun h => (by cases h), ?_,
      fun hnil => absurd hnil (hw.heard hr)⟩
    · rw [hw.rest, List.append_assoc]
      exact congrArg _ hdropped
    · rintro _ ⟨⟩
      exact ⟨hw.le, fun _ h => by cases h⟩

/-! ## Repetition -/

/-- The tokens of an optional item: those of the item, or none. -/
def Optional (Q : NodeId → List Token → α → NodeId → Prop) (i : NodeId) (w : List Token)
    (o : Option α) (k : NodeId) : Prop :=
  match o with
  | none => w = [] ∧ k = i
  | some a => Q i w a k

/-- The tokens of several items one after the other. -/
inductive Concat (Q : NodeId → List Token → α → NodeId → Prop) :
    NodeId → List Token → List α → NodeId → Prop
  | nil {i : NodeId} : Concat Q i [] [] i
  | cons {i j k : NodeId} {u v : List Token} {a : α} {as : List α} :
      Q i u a j → Concat Q j v as k → Concat Q i (u ++ v) (a :: as) k

/-- The tokens of several items with commas between them, no more than `limit`. -/
inductive Listed (Q : NodeId → List Token → α → NodeId → Prop) :
    Nat → NodeId → List Token → List α → NodeId → Prop
  | one {limit : Nat} {i k : NodeId} {w : List Token} {a : α} :
      Q i w a k → Listed Q (limit + 1) i w [a] k
  | cons {limit : Nat} {i j k : NodeId} {u v : List Token} {comma : Token} {a : α}
      {as : List α} :
      Q i u a j → comma.is .comma = true → Listed Q limit j v as k →
        Listed Q (limit + 1) i (u ++ comma :: v) (a :: as) k

/-- The tokens of a list with commas that may be missing. -/
inductive MaybeListed (Q : NodeId → List Token → α → NodeId → Prop) (limit : Nat) (i : NodeId) :
    List Token → List α → NodeId → Prop
  | none : MaybeListed Q limit i [] [] i
  | some {w : List Token} {as : List α} {k : NodeId} :
      Listed Q limit i w as k → MaybeListed Q limit i w as k

theorem gives_limited (h : Gives K i P R p) (index : Nat) :
    Gives K i P (fun w a k => index < maxArity ∧ R w a k) (limited fault p index) := by
  unfold limited
  by_cases hindex : maxArity ≤ index
  · simp only [hindex, if_true]
    intro c hc hi
    have hreport : Gives K i P (fun w a k => index < maxArity ∧ R w a k)
        (report c.peek fault >>= fun _ => p) :=
      gives_report_bind hc.peek (h.mono (fun _ _ _ h => h) fun _ _ _ _ => trivial)
    exact hreport c hc hi
  · simp only [hindex, if_false]
    exact h.mono (fun _ _ _ h => h) fun _ _ _ h => ⟨Nat.lt_of_not_le hindex, h⟩

section Lists

variable {Q S : NodeId → List Token → α → NodeId → Prop}

theorem gives_some (h : Gives K i (Q i) (S i) p) :
    Gives K i (Optional Q i) (Optional S i) (some <$> p) :=
  h.map (fun _ _ _ h => h) fun _ _ _ h => h

theorem gives_none : Gives K i (Optional Q i) (Optional S i) (pure none) :=
  gives_pure ⟨rfl, rfl⟩ ⟨rfl, rfl⟩

theorem gives_many {item : Nat → Parser (Option α)}
    (h : ∀ index i, Gives K i (Optional Q i) (Optional S i) (item index)) (i : NodeId) :
    Gives K i (Concat Q i) (Concat S i) (many item) := by
  have hbudget : ∀ budget index i, Gives K i (Concat Q i) (Concat S i)
      (manyUpTo item budget index) := by
    intro budget
    induction budget with
    | nil => exact fun _ i => gives_pure .nil .nil
    | cons t budget ih =>
      intro index i
      refine (h index i).bind fun u o j ho => ?_
      cases o with
      | none =>
        obtain ⟨rfl, rfl⟩ := ho
        exact gives_pure .nil fun _ => .nil
      | some a =>
        exact (ih (index + 1) j).map (fun v as k has => .cons ho has) fun v as k has ha => .cons ha has
  exact fun c hc hi => hbudget c.rest 0 i c hc hi

/-- An entry of a list behind a comma. -/
theorem gives_commaItem (h : ∀ i, Gives K i (Q i) (S i) p) (index : Nat) (i : NodeId) :
    Gives K i
      (Optional (fun i w a k => ∃ comma v, w = comma :: v ∧ comma.is .comma = true ∧ Q i v a k) i)
      (Optional (fun i w a k => index + 1 < maxArity ∧ ∀ comma v, w = comma :: v → S i v a k) i)
      (commaItem (limited fault p) index) := by
  refine gives_acceptIf_bind gives_none fun comma _ hcomma => ?_
  refine (gives_limited (h i) (index + 1)).map (fun w a k ha => ⟨comma, w, rfl, hcomma, ha⟩) ?_
  rintro w a k ⟨hindex, ha⟩
  refine ⟨hindex, ?_⟩
  rintro _ _ ⟨⟩
  exact ha

/-- The entries of a list behind the first `index + 1`. -/
theorem gives_commaItems (h : ∀ i, Gives K i (Q i) (S i) p) (budget : List Token) (index : Nat)
    (i : NodeId) :
    Gives K i
      (fun w as k => ∀ h u a, Q h u a i → ∃ limit, Listed Q limit h (u ++ w) (a :: as) k)
      (fun w as k => index < maxArity → ∀ h u a, S h u a i →
        Listed S (maxArity - index) h (u ++ w) (a :: as) k)
      (manyUpTo (commaItem (limited fault p)) budget index) := by
  have hsucc : ∀ {index}, index < maxArity → maxArity - index = maxArity - (index + 1) + 1 := by
    omega
  have hone : ∀ {index j h u a}, index < maxArity → S h u a j →
      Listed S (maxArity - index) h (u ++ []) [a] j := by
    intro index j h u a hindex ha
    rw [hsucc hindex, List.append_nil]
    exact .one ha
  induction budget generalizing index i with
  | nil =>
    exact gives_pure (fun h u a ha => ⟨1, by simpa using .one ha⟩) fun hindex h u a => hone hindex
  | cons t budget ih =>
    refine (gives_commaItem h index i).bind fun v o j ho => ?_
    cases o with
    | none =>
      obtain ⟨rfl, rfl⟩ := ho
      exact gives_pure (fun h u a ha => ⟨1, by simpa using .one ha⟩) fun _ hindex h u a => hone hindex
    | some b =>
      obtain ⟨comma, v, rfl, hcomma, hb⟩ := ho
      refine (ih (index + 1) j).map (fun w bs k hbs h u a ha => ?_)
        fun w bs k hbs hb hindex h u a ha => ?_
      · obtain ⟨limit, hlisted⟩ := hbs i v b hb
        exact ⟨limit + 1, .cons ha hcomma hlisted⟩
      · rw [hsucc hindex]
        exact .cons ha hcomma (hbs hb.1 i v b (hb.2 comma v rfl))

theorem gives_commaList (h : ∀ i, Gives K i (Q i) (S i) p) (i : NodeId) :
    Gives K i (fun w as k => ∃ limit, MaybeListed Q limit i w as k) (MaybeListed S maxArity i)
      (commaList (limited fault p)) := by
  refine gives_look_bind (fun _ => ⟨_, rfl⟩) fun b => ?_
  cases b with
  | true => exact gives_pure ⟨0, .none⟩ .none
  | false =>
    refine (gives_limited (h i) 0).bind fun u a j ha => ?_
    have hothers : Gives K j _ _ (many (commaItem (limited fault p))) :=
      fun c hc hj => gives_commaItems h c.rest 0 j c hc hj
    refine hothers.map (fun w as k has => ?_) fun w as k has ha => .some (has ha.1 i u a ha.2)
    obtain ⟨limit, hlisted⟩ := has i u a ha
    exact ⟨limit, .some hlisted⟩

/-! ## Derivations -/

theorem Concat.derives_many (h : Concat Q i w as k) (hQ : ∀ i u a k, Q i u a k → Derives e u) :
    Derives (.many e) w := by
  induction h with
  | nil => exact .manyNil
  | cons hu _ ih => exact .manyCons (hQ _ _ _ _ hu) ih

theorem Listed.derives_list {limit : Nat} (h : Listed Q limit i w as k)
    (hQ : ∀ i u a k, Q i u a k → Derives e u) : Derives (.list limit e) w := by
  induction h with
  | one hu => exact .listOne (hQ _ _ _ _ hu)
  | cons hu hcomma _ ih => exact .listCons (hQ _ _ _ _ hu) hcomma ih

/-- A list that may be missing is optional in the grammar. -/
theorem MaybeListed.derives_opt {r : Nonterminal} (h : MaybeListed Q maxArity i w as k)
    (hQ : ∀ i u a k, Q i u a k → Derives e u) (hr : rules r = .list maxArity e) :
    Derives (.opt (.rule r)) w := by
  cases h with
  | none => exact .optNone
  | some h => exact .optSome (.rule (hr ▸ h.derives_list hQ))

end Lists

end Parser

end Lox
