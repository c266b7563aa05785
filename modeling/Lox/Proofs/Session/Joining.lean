import Lox.Proofs.Parser.Relabeling
import Lox.Proofs.Scope.Relabeling
import Lox.Proofs.Session.History
import Lox.Proofs.Token.LineEnds

/-!
# Sources one behind the other

Two sources with a line end between them are a source. If nothing is wrong with either of them,
it is read as the statements of the first and then those of the second, which stand further down.
The names in it are bound as they are in the two sources. So nothing is wrong with it either.
-/

namespace Lox

namespace Session

variable {first second : String} {i : NodeId}

/-- The tokens of a source that can be read end with the end mark, which no other one is. -/
theorem exists_tokens (h : (read i first).faults = []) :
    ∃ front last, Lexer.tokensOf (Lexer.scan first) = front ++ [Token.endMark last] ∧
      (∀ t ∈ front, t.isEnd = false) ∧ Lexer.faultsOf (Lexer.scan first) = [] ∧
      (Lox.parse i (front ++ [Token.endMark last])).faults = [] := by
  obtain ⟨hscan, hparse⟩ := List.append_eq_nil_iff.1 h
  obtain ⟨front, last, htokens, hfront, -⟩ := Lexer.tokens_append_lineEnd hscan
  rw [htokens] at hparse
  exact ⟨front, last, htokens, hfront, hscan, hparse⟩

theorem relabel_read (i : NodeId) (source : String) :
    Stmts.relabel (.move 0 0) (read i source).statements = (read i source).statements :=
  (congrArg Parsed.statements (read_move i source 0)).symm

/-- Whether a source is clean does not depend on the numbers of its nodes. -/
theorem Clean.move (h : Clean i first) (k : Nat) : Clean (i + k) first := by
  unfold Clean
  rw [read_move i first k]
  exact ⟨h.1, (resolve_relabel _).2.2 h.2⟩

/-- Two sources with a line end between them are read as the statements of the first and those
of the second. -/
theorem read_join (h : (read i first).faults = [])
    (h' : (read (read i first).fresh second).faults = []) :
    ∃ lines, read i (first ++ "\n" ++ second) =
      ⟨(read i first).statements ++
        Stmts.relabel (.move lines 0) (read (read i first).fresh second).statements, [],
        (read (read i first).fresh second).fresh⟩ := by
  obtain ⟨front', last', htokens', hfront', hscan', hparse'⟩ := exists_tokens h'
  obtain ⟨hscan, hparse⟩ := List.append_eq_nil_iff.1 h
  obtain ⟨front, last, htokens, hfront, hboth⟩ := Lexer.tokens_append_lineEnd hscan
  obtain ⟨hscan'', htokens''⟩ := hboth second hscan'
  rw [htokens] at hparse
  have hread : read i first = Lox.parse i (front ++ [Token.endMark last]) := by
    simp only [read, hscan, htokens, List.nil_append]
  have happend := parse_append (r := .move 0 0) (q := .move last 0) hfront rfl hparse hfront' rfl
    hparse' (by rw [← hread]; rfl)
  have hmap : front.map (Token.relabel (.move 0 0)) = front := List.map_id' _
  rw [← hread, relabel_read i first, hmap] at happend
  refine ⟨last, ?_⟩
  simp only [read, hscan'', htokens'', hscan', htokens', List.nil_append]
  exact happend

/-- The names in two clean sources are bound one source behind the other. -/
theorem Clean.join (h : Clean i first) (h' : Clean (read i first).fresh second) :
    Clean i (first ++ "\n" ++ second) ∧
      (resolve (read i (first ++ "\n" ++ second)).statements).bindings =
        (resolve (read i first).statements).bindings ++
          (resolve (read (read i first).fresh second).statements).bindings := by
  obtain ⟨lines, hread⟩ := read_join h.1 h'.1
  obtain ⟨hbindings, hfaults⟩ :=
    resolve_relabel (r := .move lines 0) (read (read i first).fresh second).statements
  have hresolve := resolve_append h.statements.2 h.2
    (Stmts.relabel (.move lines 0) (read (read i first).fresh second).statements)
  unfold Clean
  rw [hread]
  refine ⟨⟨rfl, ?_⟩, ?_⟩
  · rw [hresolve, Findings.faults_append, h.2, hfaults.2 h'.2]
    rfl
  · rw [hresolve, Findings.bindings_append, hbindings]
    exact congrArg _ (List.map_id' _)

end Session

end Lox
