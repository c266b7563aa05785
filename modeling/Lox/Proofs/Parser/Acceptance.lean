import Lox.Proofs.Parser.Rereading
import Lox.Proofs.Parser.Statements
import Lox.Proofs.Syntax.Derivations

/-!
# The parser accepts exactly the grammar

A list of tokens that ends with a mark of the end is read as a program without a report if and
only if it derives from the grammar. Lists of parameters and arguments that are too long do
not derive from it.

What is read derives from the grammar by the rules that read it. What derives from the grammar is
written as a tree, and what is written is read again.
-/

namespace Lox

namespace Parser

/-- Declarations that are read one after the other derive from the grammar. -/
theorem derives_of_readsItems {index : Nat} {c c' : Cursor} {os : List (Option Stmt)}
    (h : ReadsItems (fun _ => programItem) index c os c') :
    ∃ u, c.rest = u ++ c'.rest ∧ os.length ≤ u.length ∧ Derives (.many (.rule .declaration)) u := by
  induction h with
  | nil => exact ⟨[], rfl, Nat.le_refl _, .manyNil⟩
  | cons ho _ ih =>
    obtain ⟨u, hu, s, rfl, hs⟩ := (gives_programItem _).reads ho
    obtain ⟨v, hv, hlen, hd⟩ := ih
    obtain ⟨s', hs'⟩ := hs.derives.spells
    have hpos := List.length_pos_iff.2 hs'.starts_declaration.ne_nil
    refine ⟨u ++ v, by rw [hu, hv, List.append_assoc], ?_, .manyCons hs.derives hd⟩
    rw [List.length_cons, List.length_append]
    omega

variable {w : List Token} {e : Token} {i : NodeId}

/-- A program is read up to the mark of the end, one declaration after the other. -/
theorem items_of_reads_program {ss : List Stmt} {c : Cursor} (hw : ∀ t ∈ w, t.isEnd = false)
    (he : e.isEnd = true) (hr : program.Reads ⟨w ++ [e], i⟩ ss c) :
    c.rest = [e] ∧ ∃ os, ss = os.reduceOption ∧
      ReadsItems (fun _ => programItem) 0 ⟨w ++ [e], i⟩ os c := by
  -- No parser goes past the mark of the end, so it is left.
  have hforward : program.Forward := (inStep_program (n := 0) (r := .erase)).forward
  obtain ⟨read, hread, -⟩ := hforward ⟨w ++ [e], i⟩
  obtain ⟨v, hv⟩ := hforward.stops (w := w) (u := []) (i := i) he
  rw [show program ⟨w ++ [e], i⟩ = ⟨some ss, c, []⟩ from hr] at hread hv
  simp only at hread hv
  obtain ⟨os, c₁, hm, hp⟩ := reads_bind.1 hr
  obtain ⟨rfl, rfl⟩ := reads_pure.1 hp
  obtain ⟨c₂, hitems, hend⟩ := reads_many.1 hm
  obtain ⟨u, hu, hle, -⟩ := derives_of_readsItems hitems
  rcases hend with ⟨hlen, rfl⟩ | ⟨-, hnone⟩
  · rw [hu, List.length_append, hv, List.length_append, List.length_singleton] at hlen
    omega
  · obtain ⟨hatEnd, rfl⟩ := reads_programItem_none.1 hnone
    refine ⟨?_, os, rfl, hitems⟩
    cases v with
    | nil => exact hv
    | cons t v =>
      rw [hv, ← List.append_assoc] at hread
      have ht : t ∈ w := List.append_inj_left' hread rfl ▸ by simp
      rw [Cursor.atEnd, Cursor.peek, hv] at hatEnd
      exact absurd hatEnd (Bool.eq_false_iff.1 (hw t ht))

theorem derives_of_reads_program {ss : List Stmt} {c : Cursor} (hw : ∀ t ∈ w, t.isEnd = false)
    (he : e.isEnd = true) (hr : program.Reads ⟨w ++ [e], i⟩ ss c) :
    Derives (.rule .program) (w ++ [e]) := by
  obtain ⟨hc, os, -, hitems⟩ := items_of_reads_program hw he hr
  obtain ⟨u, hu, -, hd⟩ := derives_of_readsItems hitems
  rw [hc] at hu
  obtain rfl := List.append_inj_left' hu rfl
  exact .rule (.cons hd (.last (.symbol he)))

end Parser

/-- The parser reports nothing if and only if the tokens derive from the grammar. -/
theorem parse_faults_eq_nil_iff (fresh : NodeId) (w : List Token) (e : Token)
    (hw : ∀ t ∈ w, t.isEnd = false) (he : e.isEnd = true) :
    (parse fresh (w ++ [e])).faults = [] ↔ Derives (.rule .program) (w ++ [e]) := by
  constructor
  · intro hf
    obtain ⟨rest, hr⟩ := Parser.reads_parse hf
    exact Parser.derives_of_reads_program hw he hr
  · intro hd
    obtain ⟨ss, u, e', huv, hss⟩ := hd.spells
    obtain ⟨rfl, -⟩ := List.append_inj' huv rfl
    obtain ⟨ss', k, hr, -⟩ := Parser.yields_program hss he fresh
    exact congrArg Reply.faults hr

/-- An `else` behind two `if`s, and a fallback behind a conditional. -/
theorem parse_faults_eq_nil_iff_ambiguous :
    let name := Token.ofSymbol .identifier "a" 1
    let w := [Token.ofSymbol .kwIf "if" 1, .ofSymbol .leftParen "(" 1, name,
      .ofSymbol .rightParen ")" 1, .ofSymbol .kwIf "if" 1, .ofSymbol .leftParen "(" 1, name,
      .ofSymbol .rightParen ")" 1, name, .ofSymbol .semicolon ";" 1, .ofSymbol .kwElse "else" 1,
      name, .ofSymbol .question "?" 1, name, .ofSymbol .colon ":" 1, name,
      .ofSymbol .questionQuestion "??" 1, name, .ofSymbol .semicolon ";" 1]
    (parse 0 (w ++ [.endMark 1])).faults = [] ∧ Derives (.rule .program) (w ++ [.endMark 1]) := by
  intro name w
  have hf : (parse 0 (w ++ [.endMark 1])).faults = [] := by decide +kernel
  exact ⟨hf, (parse_faults_eq_nil_iff 0 w (.endMark 1) (by decide) rfl).1 hf⟩

end Lox
