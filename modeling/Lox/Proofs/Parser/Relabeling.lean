import Lox.Proofs.Parser.Acceptance
import Lox.Proofs.Parser.Rules

/-!
# Programs one behind the other

A declaration is read elsewhere as it is read in one place, unless there is an `else` behind one of
the places only. A program does not start with an `else`. So where two programs stand one behind
the other, the declarations of the first are read, and then those of the second, with other lines
and other numbers.
-/

namespace Lox

namespace Parser

variable {α : Type} {r : Relabeling}

/-- A declaration is read elsewhere as well, unless there is an `else` behind one of the places and
not behind the other. -/
theorem declaration_elsewhere {c c' : Cursor} {s : Stmt} (h : declaration.Reads c (some s) c') :
    ∃ w, c.rest = w ++ c'.rest ∧ ∀ rest, SameElse c'.rest rest →
      declaration.Reads ⟨w.map (Token.relabel r) ++ rest, c.fresh + r.shift⟩
        (some (s.relabel r)) ⟨rest, c'.fresh + r.shift⟩ := by
  obtain ⟨tokens, i⟩ := c
  have hstep : InStepDecl (tokens.length + 1) r declaration declaration := inStepRules_self.2
  have happly : declaration ⟨tokens, i⟩ = ⟨some (some s), c', []⟩ := h
  obtain ⟨w, hw, -⟩ := hstep.inStep.forward ⟨tokens, i⟩
  rw [happly] at hw
  simp only at hw
  subst hw
  refine ⟨w, rfl, fun rest helse => ?_⟩
  have hlen : w.length < (w ++ c'.rest).length + 1 := by
    simp only [List.length_append]
    omega
  have hrest : (declaration ⟨w ++ c'.rest, i⟩).cursor.rest = [] ++ c'.rest := by
    rw [happly]
    rfl
  have hclosed : Unseen r (fun o => o.isSome = true) (declaration ⟨w ++ c'.rest, i⟩) c'.rest rest := by
    rw [happly]
    exact .closed rfl rfl rfl helse
  have hreply := hstep.inStep.reply hlen hrest (.inr hclosed)
  rw [happly] at hreply
  exact hreply

/-- Declarations that are read one after the other are read elsewhere as well, unless there is an
`else` behind one of the places and not behind the other. -/
theorem programItems_elsewhere {k : Nat} {c c' : Cursor} {os : List (Option Stmt)}
    (h : ReadsItems (fun _ => programItem) k c os c') :
    ∃ w, c.rest = w ++ c'.rest ∧ os.length ≤ w.length ∧
      ∀ k' rest, SameElse c'.rest rest →
        ReadsItems (fun _ => programItem) k'
          ⟨w.map (Token.relabel r) ++ rest, c.fresh + r.shift⟩
          ((Stmts.relabel r os.reduceOption).map some) ⟨rest, c'.fresh + r.shift⟩ := by
  induction h with
  | nil => exact ⟨[], rfl, Nat.le_refl _, fun k' rest _ => .nil⟩
  | @cons k c c₁ c' o os ho _ ih =>
    obtain ⟨hend, ho⟩ := reads_programItem_some.1 ho
    obtain ⟨-, -, s, rfl, -⟩ := (gives_declaration c.fresh).reads ho
    obtain ⟨u, hu, helsewhere⟩ := declaration_elsewhere (r := r) ho
    obtain ⟨v, hv, hlen, hothers⟩ := ih
    have hlt : c₁.rest.length < c.rest.length := by
      have hadvances := declarationUpTo_advances c.rest hend
      rwa [show declarationUpTo c.rest c = ⟨some (some s), c₁, []⟩ from ho] at hadvances
    rw [hu, List.length_append] at hlt
    refine ⟨u ++ v, by rw [hu, hv, List.append_assoc], ?_, fun k' rest helse => ?_⟩
    · simp only [List.length_cons, List.length_append]
      omega
    · rw [List.map_append, List.append_assoc]
      refine .cons (reads_programItem_some.2 ⟨?_, helsewhere _ ?_⟩) (hothers _ rest helse)
      · cases u with
        | nil => simp at hlt
        | cons t u =>
          simp only [Cursor.atEnd, Cursor.peek, hu] at hend
          exact hend
      · rw [hv]
        cases v with
        | nil => exact helse
        | cons t v => rfl

theorem ReadsItems.append {item : Parser (Option α)} {k : Nat} {c c' c'' : Cursor} {as bs : List α}
    (h : ReadsItems (fun _ => item) k c as c')
    (h' : ∀ k, ReadsItems (fun _ => item) k c' bs c'') :
    ReadsItems (fun _ => item) k c (as ++ bs) c'' := by
  induction h with
  | nil => exact h' _
  | cons ha _ ih => exact .cons ha (ih h')

/-- Declarations up to the end are a program. -/
theorem reads_program_of_items {c c' : Cursor} {ss : List Stmt}
    (h : ReadsItems (fun _ => programItem) 0 c (ss.map some) c') (hend : c'.atEnd = true)
    (hne : c'.rest ≠ []) : program.Reads c ss c' := by
  obtain ⟨w, hw, hlen, -⟩ := programItems_elsewhere (r := .erase) h
  refine reads_bind.2 ⟨ss.map some, c', reads_many.2 ⟨c', h,
    .inr ⟨?_, reads_programItem_none.2 ⟨hend, rfl⟩⟩⟩,
    reads_pure.2 ⟨?_, rfl⟩⟩
  · have hpos := List.length_pos_iff.2 hne
    rw [hw, List.length_append]
    omega
  · change ss = (ss.map some).filterMap id
    simp [List.filterMap_map]

/-- A program that is read up to a mark of the end is made of declarations, which are read before
anything else that is no `else` as well. -/
theorem program_elsewhere {w rest : List Token} {e : Token} {i : NodeId} {ss : List Stmt} {c : Cursor}
    (hw : ∀ t ∈ w, t.isEnd = false) (he : e.isEnd = true) (h : program.Reads ⟨w ++ [e], i⟩ ss c)
    (hrest : rest ≠ []) (helse : ∀ t ∈ rest.head?, t.is .kwElse = false) (k : Nat) :
    ReadsItems (fun _ => programItem) k ⟨w.map (Token.relabel r) ++ rest, i + r.shift⟩
      ((Stmts.relabel r ss).map some) ⟨rest, c.fresh + r.shift⟩ := by
  obtain ⟨hc, os, rfl, hitems⟩ := items_of_reads_program hw he h
  obtain ⟨u, hu, -, helsewhere⟩ := programItems_elsewhere (r := r) hitems
  obtain rfl : u = w := by
    rw [hc] at hu
    exact (List.append_inj_left' hu rfl).symm
  refine helsewhere k rest ?_
  rw [hc]
  cases rest with
  | nil => exact absurd rfl hrest
  | cons t rest =>
    have heElse : e.is .kwElse = false := Token.is_eq_false he (by decide)
    exact heElse.trans (helse t rfl).symm

end Parser

open Lox.Parser

/-- Tokens that are read as a program do not start with an `else`. -/
theorem head_not_else {w : List Token} {e : Token} {i : NodeId} (hw : ∀ t ∈ w, t.isEnd = false)
    (he : e.isEnd = true) (h : (parse i (w ++ [e])).faults = []) :
    ∀ t ∈ (w ++ [e]).head?, t.is .kwElse = false := by
  obtain ⟨rest, hr⟩ := reads_parse h
  obtain ⟨ss, u, e', hu, hss⟩ := (derives_of_reads_program hw he hr).spells
  obtain ⟨rfl, -⟩ := List.append_inj' hu rfl
  have hblocked := hss.blocked (fun _ _ hs => hs.starts_declaration) (by decide)
    (blocked_cons he (by decide) : Blocked [.kwElse] [e])
  exact hblocked.not_is (List.mem_singleton_self _)

/-- Two programs one behind the other, on other lines and with other numbers. -/
theorem parse_append {u v : List Token} {e e' : Token} {i j : NodeId} {r q : Relabeling}
    (hu : ∀ t ∈ u, t.isEnd = false) (he : e.isEnd = true) (h : (parse i (u ++ [e])).faults = [])
    (hv : ∀ t ∈ v, t.isEnd = false) (he' : e'.isEnd = true) (h' : (parse j (v ++ [e'])).faults = [])
    (hfresh : (parse i (u ++ [e])).fresh + r.shift = j + q.shift) :
    parse (i + r.shift) (u.map (Token.relabel r) ++ (v ++ [e']).map (Token.relabel q)) =
      ⟨Stmts.relabel r (parse i (u ++ [e])).statements ++
        Stmts.relabel q (parse j (v ++ [e'])).statements, [],
        (parse j (v ++ [e'])).fresh + q.shift⟩ := by
  obtain ⟨rest, hread⟩ := reads_parse h
  obtain ⟨rest', hread'⟩ := reads_parse h'
  have hhead := head_not_else hv he' h'
  have hitems : ReadsItems (fun _ => programItem) 0
      ⟨u.map (Token.relabel r) ++ (v ++ [e']).map (Token.relabel q), i + r.shift⟩
      ((Stmts.relabel r (parse i (u ++ [e])).statements).map some)
      ⟨(v ++ [e']).map (Token.relabel q), (parse i (u ++ [e])).fresh + r.shift⟩ := by
    refine program_elsewhere hu he hread (by simp) ?_ 0
    intro t ht
    rw [List.head?_map] at ht
    obtain ⟨t', ht', rfl⟩ := Option.map_eq_some_iff.1 ht
    exact hhead t' ht'
  have hitems' : ∀ k, ReadsItems (fun _ => programItem) k
      ⟨(v ++ [e']).map (Token.relabel q), j + q.shift⟩
      ((Stmts.relabel q (parse j (v ++ [e'])).statements).map some)
      ⟨[e'.relabel q], (parse j (v ++ [e'])).fresh + q.shift⟩ := by
    intro k
    rw [List.map_append]
    refine program_elsewhere hv he' hread' (List.cons_ne_nil _ _) ?_ k
    intro t ht
    obtain rfl := Option.some.inj ht
    exact Token.is_eq_false (show (e'.relabel q).is .eof = true from he') (by decide)
  rw [hfresh] at hitems
  have hboth := hitems.append hitems'
  rw [← List.map_append] at hboth
  have hprogram : program ⟨_, _⟩ = ⟨some _, ⟨_, _⟩, []⟩ :=
    reads_program_of_items hboth (show (e'.relabel q).isEnd = true from he') (List.cons_ne_nil _ _)
  rw [parse, hprogram]
  rfl

end Lox
