import Lox.Proofs.Parser.Relabeling
import Mathlib.Data.List.ReduceOption

/-!
# Going on behind a fault

A declaration with a fault is left out, and reading goes on where a statement seems to start. If
the fault is found before the next semicolon or at it, and no keyword that starts a statement
stands in between, this place is right behind the semicolon: nothing of what follows is lost, and
nothing else is reported. One token is dropped in any case, and this may be the semicolon itself.
-/

namespace Lox

variable {α : Type}

namespace Parser

/-- A declaration or statement. With a fault it gives up, before the token that the fault is
reported at. -/
def attempt : Parser Stmt := declarationRule branch declaration

theorem declaration_eq_recover : declaration = recover attempt := declaration_eq

theorem inStep_attempt {n : Nat} {r : Relabeling} : InStepStmt n r attempt attempt :=
  (inStep_declarationRule inStepRules_self.1 inStepRules_self.2).mono (Nat.le_succ n)

/-- A declaration that is not read has a fault. -/
theorem faults_attempt {c : Cursor} (h : (attempt c).result = none) : (attempt c).faults ≠ [] := by
  obtain ⟨w, hw⟩ := gives_declarationRule (K := fun _ => True) gives_branch gives_declaration c.fresh
    c (fun _ _ => trivial) rfl
  exact hw.heard h

/-- A declaration that gives up before its last token does so before other tokens as well, and
with other numbers. -/
theorem attempt_append {w v : List Token} {n : NodeId} (hnone : (attempt ⟨w, n⟩).result = none)
    (hrest : (attempt ⟨w, n⟩).cursor.rest ≠ []) (m : NodeId) :
    ∃ fresh, attempt ⟨w ++ v, m⟩ =
      ⟨none, ⟨(attempt ⟨w, n⟩).cursor.rest ++ v, fresh⟩, (attempt ⟨w, n⟩).faults⟩ := by
  -- both are compared with the same tokens where the numbers start from zero
  have hself : (attempt ⟨w ++ [], 0⟩).cursor.rest = (attempt ⟨w, 0⟩).cursor.rest ++ [] := by
    simp only [List.append_nil]
  have hn := inStep_attempt.reply_move (k := n) (Nat.lt_succ_self w.length) hself
    (.inr ⟨rfl, rfl, .inl rfl⟩)
  simp only [List.append_nil, Nat.zero_add] at hn
  rw [hn] at hnone hrest ⊢
  have hm := inStep_attempt.reply_move (k := m) (Nat.lt_succ_self w.length) hself (v := v) (.inl hrest)
  simp only [List.append_nil, Nat.zero_add] at hm
  rw [hm]
  have hnone' : (attempt ⟨w, 0⟩).result = none := by simpa using hnone
  exact ⟨_, by rw [hnone']; rfl⟩

/-! ## Dropping tokens -/

/-- Tokens are dropped up to a semicolon, which is dropped as well. -/
theorem dropToBoundary_semicolon {previous semicolon : Token} {w v : List Token}
    (hprevious : previous.is .semicolon = false) (hsemicolon : semicolon.is .semicolon = true)
    (hw : ∀ t ∈ w, t.isEnd = false ∧ t.is .semicolon = false ∧ statementKeywords.any t.is = false) :
    dropToBoundary previous (w ++ semicolon :: v) = v := by
  induction w generalizing previous with
  | nil =>
    have hend : semicolon.isEnd = false := Token.is_eq_false hsemicolon (by decide)
    have hkeyword : statementKeywords.any semicolon.is = false := by
      simp only [statementKeywords, List.any_cons, List.any_nil, Bool.or_false,
        Bool.or_eq_false_iff]
      refine ⟨?_, ?_, ?_, ?_, ?_, ?_, ?_, ?_⟩ <;> exact Token.is_eq_false hsemicolon (by decide)
    rw [List.nil_append, dropToBoundary, hend, hprevious, hkeyword]
    cases v with
    | nil => rfl
    | cons t v => simp [dropToBoundary, hsemicolon]
  | cons t w ih =>
    obtain ⟨⟨hend, hnot, hkeyword⟩, hw⟩ := List.forall_mem_cons.1 hw
    rw [List.cons_append, dropToBoundary, hend, hprevious, hkeyword]
    exact ih hnot hw

/-- Wherever a fault is found before a semicolon or at it, reading goes on right behind it. -/
theorem synchronize_fault {semicolon : Token} {w rest read v : List Token}
    (hsemicolon : semicolon.is .semicolon = true)
    (hw : ∀ t ∈ w, t.isEnd = false ∧ t.is .semicolon = false)
    (hkeywords : ∀ t ∈ w.tail, statementKeywords.any t.is = false)
    (hread : w ++ [semicolon] = read ++ rest) (hrest : rest ≠ []) :
    synchronize (rest ++ v) = v := by
  obtain ⟨front, last, rfl⟩ := (List.eq_nil_or_concat rest).resolve_left hrest
  rw [List.concat_eq_append, ← List.append_assoc] at hread
  obtain ⟨rfl, hlast⟩ := List.append_inj' hread rfl
  obtain rfl : semicolon = last := by simpa using hlast
  have hend : semicolon.isEnd = false := Token.is_eq_false hsemicolon (by decide)
  rw [List.concat_eq_append, List.append_assoc, List.singleton_append]
  cases front with
  | nil =>
    -- the semicolon itself is the token that is dropped in any case
    cases v with
    | nil => simp [synchronize, hend, dropToBoundary]
    | cons t v => simp [synchronize, hend, dropToBoundary, hsemicolon]
  | cons t front =>
    have hbehind : ∀ u ∈ front, u ∈ (read ++ t :: front).tail := by
      intro u hu
      cases read with
      | nil => exact hu
      | cons r read => exact List.mem_append_right _ (List.mem_cons_of_mem _ hu)
    have ht := hw t (List.mem_append_right _ List.mem_cons_self)
    rw [List.cons_append, synchronize, ht.1]
    refine dropToBoundary_semicolon ht.2 hsemicolon fun u hu => ?_
    have hu' := hw u (List.mem_append_right _ (List.mem_cons_of_mem _ hu))
    exact ⟨hu'.1, hu'.2, hkeywords u (hbehind u hu)⟩

/-! ## Repetition with faults -/

section Items

variable {item : Nat → Parser (Option α)} (hitem : Repeats item)
include hitem

/-- A repetition is its first item and the others. -/
theorem Repeats.manyUpTo_of_item {c c' : Cursor} {a : α} {faults : List Diagnostic} {index : Nat}
    (h : item index c = ⟨some (some a), c', faults⟩) :
    manyUpTo item c.rest index c =
      ⟨(manyUpTo item c'.rest (index + 1) c').result.map (a :: ·),
        (manyUpTo item c'.rest (index + 1) c').cursor,
        faults ++ (manyUpTo item c'.rest (index + 1) c').faults⟩ := by
  have hlt := hitem.advances index c (some a) (by rw [h]) rfl
  rw [h] at hlt
  obtain ⟨_ | ⟨t, rest⟩, fresh⟩ := c
  · cases hlt
  · have hle : c'.rest.length ≤ rest.length := Nat.le_of_lt_succ hlt
    simp only [manyUpTo, bind_apply, h, hitem.manyUpTo_eq (index + 1) hle]
    rcases manyUpTo item c'.rest (index + 1) c' with ⟨_ | as, c'', faults'⟩
    · rfl
    · simp only [pure_apply, List.append_nil, Option.map_some]

/-- Items that are read without a report stand in front of the others. -/
theorem Repeats.manyUpTo_of_items {c c' : Cursor} {as : List α} {index : Nat}
    (h : ReadsItems item index c as c') :
    manyUpTo item c.rest index c =
      ⟨(manyUpTo item c'.rest (index + as.length) c').result.map (as ++ ·),
        (manyUpTo item c'.rest (index + as.length) c').cursor,
        (manyUpTo item c'.rest (index + as.length) c').faults⟩ := by
  induction h with
  | nil => simp
  | @cons index c c₁ c' a as ha _ ih =>
    rw [hitem.manyUpTo_of_item ha, ih, List.length_cons,
      show index + 1 + as.length = index + (as.length + 1) by omega, Option.map_map]
    rfl

end Items

/-! ## Programs -/

/-- A declaration with a fault is left out of a program, and reported. -/
theorem programItem_fault {semicolon : Token} {w v : List Token} {n : NodeId}
    (hsemicolon : semicolon.is .semicolon = true)
    (hw : ∀ t ∈ w, t.isEnd = false ∧ t.is .semicolon = false)
    (hkeywords : ∀ t ∈ w.tail, statementKeywords.any t.is = false)
    (hnone : (attempt ⟨w ++ [semicolon], n⟩).result = none)
    (hrest : (attempt ⟨w ++ [semicolon], n⟩).cursor.rest ≠ []) (m : NodeId) :
    ∃ fresh, programItem ⟨w ++ [semicolon] ++ v, m⟩ =
      ⟨some (some none), ⟨v, fresh⟩, (attempt ⟨w ++ [semicolon], n⟩).faults⟩ := by
  obtain ⟨fresh, hattempt⟩ := attempt_append (v := v) hnone hrest m
  obtain ⟨read, hread, -⟩ := (inStep_attempt (n := 0) (r := .erase)).forward ⟨w ++ [semicolon], n⟩
  have hend : Cursor.atEnd ⟨w ++ [semicolon] ++ v, m⟩ = false := by
    cases w with
    | nil => exact Token.is_eq_false hsemicolon (by decide)
    | cons t w => exact (hw t List.mem_cons_self).1
  refine ⟨fresh, ?_⟩
  rw [programItem_apply, hend, declaration_eq_recover, map_apply, recover_apply, hattempt]
  simp only [Bool.false_eq_true, if_false, Option.isSome_none, Option.map_some,
    synchronize_fault hsemicolon hw hkeywords hread hrest]

theorem program_apply {c c' : Cursor} {os : List (Option Stmt)} {faults : List Diagnostic}
    (h : many (fun _ => programItem) c = ⟨some os, c', faults⟩) :
    program c = ⟨some os.reduceOption, c', faults⟩ := by
  change (many (fun _ => programItem) >>= fun os => pure os.reduceOption) c = _
  simp only [bind_apply, h, pure_apply, List.append_nil]

theorem manyUpTo_programItem_end {mark : Token} (h : mark.isEnd = true) (index : Nat)
    (fresh : NodeId) : manyUpTo (fun _ => programItem) [mark] index ⟨[mark], fresh⟩ =
      ⟨some [], ⟨[mark], fresh⟩, []⟩ := by
  have hitem : programItem ⟨[mark], fresh⟩ = ⟨some none, ⟨[mark], fresh⟩, []⟩ :=
    reads_programItem_none.2 ⟨h, rfl⟩
  simp only [manyUpTo, bind_apply, hitem, pure_apply, List.append_nil]

/-- The declarations of a program, before other tokens. -/
theorem items_of_parse {w rest : List Token} {i : NodeId} (hw : ∀ t ∈ w, t.isEnd = false)
    (h : (parse i w).faults = []) (hrest : rest ≠ [])
    (helse : ∀ t ∈ rest.head?, t.is .kwElse = false) (index : Nat) :
    ReadsItems (fun _ => programItem) index ⟨w ++ rest, i⟩ ((parse i w).statements.map some)
      ⟨rest, (parse i w).fresh⟩ := by
  rw [← parse_upToEnd i w, upToEnd_of_forall hw] at h ⊢
  obtain ⟨behind, hread⟩ := reads_parse h
  have hitems := program_elsewhere (r := .move 0 0) hw rfl hread hrest helse index
  have hmap : w.map (Token.relabel (.move 0 0)) = w := List.map_id w
  rwa [hmap, Stmts.relabel_zero] at hitems

end Parser

open Lox.Parser

/-- The faults of tokens are the same with any numbers. -/
theorem faults_parse (i j : NodeId) (tokens : List Token) :
    (parse i tokens).faults = (parse j tokens).faults := by
  have hzero : ∀ i, (parse i tokens).faults = (parse 0 tokens).faults := fun i => by
    have hmove := parse_move 0 i tokens
    rw [Nat.zero_add] at hmove
    rw [hmove]
  rw [hzero i, hzero j]

/-- A declaration with a fault between two programs, which ends with the first semicolon. The two
programs are read as they are without it, and its faults are all that is reported. -/
theorem parse_around_fault {before w behind : List Token} {semicolon mark : Token}
    {i j k n : NodeId} (hbefore : ∀ t ∈ before, t.isEnd = false)
    (hbefore' : (parse j before).faults = []) (hbehind : ∀ t ∈ behind, t.isEnd = false)
    (hbehind' : (parse k behind).faults = [])
    (hw : ∀ t ∈ w, t.isEnd = false ∧ t.is .semicolon = false)
    (helse : ∀ t ∈ w.head?, t.is .kwElse = false)
    (hkeywords : ∀ t ∈ w.tail, statementKeywords.any t.is = false)
    (hsemicolon : semicolon.is .semicolon = true) (hmark : mark.isEnd = true)
    (hnone : (attempt ⟨w ++ [semicolon], n⟩).result = none)
    (hrest : (attempt ⟨w ++ [semicolon], n⟩).cursor.rest ≠ []) :
    (∃ m, parse i (before ++ w ++ [semicolon] ++ behind ++ [mark]) =
      ⟨(parse i before).statements ++ (parse m behind).statements,
        (attempt ⟨w ++ [semicolon], n⟩).faults, (parse m behind).fresh⟩) ∧
      (attempt ⟨w ++ [semicolon], n⟩).faults ≠ [] := by
  refine ⟨?_, faults_attempt hnone⟩
  have hhead : ∀ t ∈ (w ++ [semicolon] ++ (behind ++ [mark])).head?, t.is .kwElse = false := by
    intro t ht
    cases w with
    | nil =>
      obtain rfl := Option.some.inj ht
      exact Token.is_eq_false hsemicolon (by decide)
    | cons u w => exact helse t ht
  have hlast : ∀ t ∈ [mark].head?, t.is .kwElse = false := by
    intro t ht
    obtain rfl := Option.some.inj ht
    exact Token.is_eq_false hmark (by decide)
  have hne : w ++ [semicolon] ++ (behind ++ [mark]) ≠ [] := by simp
  have hfirst := items_of_parse hbefore ((faults_parse i j before).trans hbefore') hne hhead 0
  obtain ⟨m, hfault⟩ := programItem_fault (v := behind ++ [mark]) hsemicolon hw hkeywords hnone
    hrest (parse i before).fresh
  have hsecond := fun index => items_of_parse hbehind ((faults_parse m k behind).trans hbehind')
    (List.cons_ne_nil mark []) hlast index
  refine ⟨m, ?_⟩
  have hmany : many (fun _ => programItem) ⟨before ++ (w ++ [semicolon] ++ (behind ++ [mark])), i⟩ =
      ⟨some ((parse i before).statements.map some ++ none :: (parse m behind).statements.map some),
        ⟨[mark], (parse m behind).fresh⟩, (attempt ⟨w ++ [semicolon], n⟩).faults⟩ := by
    refine (repeats_programItem.manyUpTo_of_items hfirst).trans ?_
    rw [repeats_programItem.manyUpTo_of_item hfault,
      repeats_programItem.manyUpTo_of_items (hsecond _), manyUpTo_programItem_end hmark]
    simp only [Option.map_some, List.append_nil]
  simp only [List.append_assoc] at hmany ⊢
  rw [parse, program_apply hmany]
  simp [List.reduceOption, List.filterMap_append, List.filterMap_map]

/-- A call without its last argument, behind a conditional that an `else` could belong to. The
fault is found at the semicolon, which is then the only token that is dropped. -/
theorem parse_around_fault_call :
    let token := fun (s : Symbol) (text : String) => Token.ofSymbol s text 1
    let before := [token .kwIf "if", token .leftParen "(", token .identifier "a",
      token .rightParen ")", token .identifier "b", token .semicolon ";"]
    let call := [token .identifier "f", token .leftParen "(", token .identifier "x",
      token .comma ","]
    let behind := [token .kwVar "var", token .identifier "c", token .semicolon ";"]
    (attempt ⟨call ++ [token .semicolon ";"], 5⟩).cursor.rest = [token .semicolon ";"] ∧
      (∃ m, parse 3 (before ++ call ++ [token .semicolon ";"] ++ behind ++ [Token.endMark 1]) =
        ⟨(parse 3 before).statements ++ (parse m behind).statements,
          (attempt ⟨call ++ [token .semicolon ";"], 5⟩).faults, (parse m behind).fresh⟩) ∧
      (attempt ⟨call ++ [token .semicolon ";"], 5⟩).faults ≠ [] := by
  intro token before call behind
  have hbefore : (parse 0 before).faults = [] := by decide +kernel
  have hbehind : (parse 9 behind).faults = [] := by decide +kernel
  have hnone : (attempt ⟨call ++ [token .semicolon ";"], 5⟩).result.isNone = true := by
    decide +kernel
  have hrest : (attempt ⟨call ++ [token .semicolon ";"], 5⟩).cursor.rest =
      [token .semicolon ";"] := by decide +kernel
  exact ⟨hrest, parse_around_fault (by decide) hbefore (by decide) hbehind (by decide) (by decide)
    (by decide) rfl rfl (Option.isNone_iff_eq_none.1 hnone) (by rw [hrest]; exact nofun)⟩

end Lox
