import Lox.Proofs.Scope.Unused
import Lox.Proofs.Token.Lines
import Mathlib.Data.List.Pairwise

/-!
# The order of unused names

A scope does not keep the order in which it declares its names. The declarations that it reports at
its end are sorted by line and then by text. Lines never go back in a source, so declarations on
different lines are reported in the order of the source. Declarations on one line are reported in
that order if and only if their texts happen to be in alphabetical order there.
-/

namespace Lox

/-! ## Lines of tokens -/

/-- Lines never go back from one token to the next. -/
theorem Lexer.pairwise_line_itemsFrom (ps : List Piece) (line : Nat) :
    (∀ t ∈ tokensOf (itemsFrom line ps), line ≤ t.line) ∧
      (tokensOf (itemsFrom line ps)).Pairwise fun t u => t.line ≤ u.line := by
  induction ps generalizing line with
  | nil => simp [itemsFrom, tokensOf, Except.toOption, Token.endMark, Token.ofSymbol]
  | cons p ps ih =>
    obtain ⟨hle, hpairwise⟩ := ih (line + p.newlines)
    have hfirst : ∀ t ∈ tokensOf (p.item? (line + p.newlines)).toList, t.line = line + p.newlines := by
      intro t ht
      unfold Piece.item? at ht
      split at ht <;> simp [tokensOf, Except.toOption] at ht
      exact ht ▸ rfl
    have hsingle : (tokensOf (p.item? (line + p.newlines)).toList).Pairwise
        fun t u => t.line ≤ u.line :=
      List.pairwise_of_forall_mem_list fun t ht u hu => by rw [hfirst t ht, hfirst u hu]
    have hitems : tokensOf (itemsFrom line (p :: ps)) =
        tokensOf (p.item? (line + p.newlines)).toList ++ tokensOf (itemsFrom (line + p.newlines) ps) :=
      List.filterMap_append
    rw [hitems]
    refine ⟨fun t ht => ?_, List.pairwise_append.2 ⟨hsingle, hpairwise, fun t ht u hu => ?_⟩⟩
    · rcases List.mem_append.1 ht with ht | ht
      · exact hfirst t ht ▸ Nat.le_add_right line _
      · exact (Nat.le_add_right line _).trans (hle t ht)
    · exact hfirst t ht ▸ hle u hu

/-! ## Places in a scope -/

namespace Region

variable {region : Region} {t u : Token}

/-- In a scope one declaration comes before another. -/
def Precedes (region : Region) (t u : Token) : Prop :=
  region.declarations.idxOf t < region.declarations.idxOf u

instance : Decidable (region.Precedes t u) := inferInstanceAs (Decidable (_ < _))

theorem Unread.mem_declarations (h : region.Unread t) : t ∈ region.declarations :=
  List.mem_of_find?_eq_some h.1

/-- Of two declarations one comes before the other. -/
theorem precedes_or (ht : t ∈ region.declarations) (hne : t ≠ u) :
    region.Precedes t u ∨ region.Precedes u t :=
  Nat.lt_or_gt_of_ne fun heq => hne ((List.idxOf_inj ht).1 heq)

/-- A declaration on a line further up comes before. -/
theorem precedes_of_line_lt (hlines : region.declarations.Pairwise fun t u => t.line ≤ u.line)
    (ht : t ∈ region.declarations) (hu : u ∈ region.declarations) (h : t.line < u.line) :
    region.Precedes t u := by
  have hne : t ≠ u := fun heq => absurd (heq ▸ h) (Nat.lt_irrefl _)
  refine (precedes_or ht hne).resolve_right fun hlt => ?_
  have hle := List.pairwise_iff_getElem.1 hlines _ _ (List.idxOf_lt_length_of_mem hu)
    (List.idxOf_lt_length_of_mem ht) hlt
  rw [List.getElem_idxOf, List.getElem_idxOf] at hle
  omega

/-- Declarations that are sorted by line and then by text are in the order of their scope if and only
if those on one line are in the order of their texts. -/
theorem pairwise_precedes_iff {ts : List Token} (hsorted : ts.Pairwise Token.Before)
    (hmem : ∀ t ∈ ts, t ∈ region.declarations)
    (hlines : region.declarations.Pairwise fun t u => t.line ≤ u.line) :
    ts.Pairwise region.Precedes ↔
      ∀ t ∈ ts, ∀ u ∈ ts, t.line = u.line → region.Precedes t u → t.lexeme < u.lexeme := by
  constructor
  · intro horder t ht u hu hline htu
    have hne : t ≠ u := fun heq => absurd (heq ▸ htu) (Nat.lt_irrefl _)
    let Apart (t u : Token) : Prop :=
      (t.Before u ∧ region.Precedes t u) ∨ (u.Before t ∧ region.Precedes u t)
    have hsymm : Std.Symm Apart := ⟨fun _ _ => Or.symm⟩
    have hboth : ts.Pairwise Apart := (hsorted.and horder).imp Or.inl
    rcases hboth.forall ht hu hne with ⟨hbefore, -⟩ | ⟨-, hut⟩
    · exact (hbefore.resolve_left (by omega)).2
    · exact absurd hut (Nat.lt_asymm htu)
  · intro htexts
    refine hsorted.imp_of_mem fun {t u} ht hu hbefore => ?_
    rcases hbefore with hline | ⟨hline, htext⟩
    · exact precedes_of_line_lt hlines (hmem t ht) (hmem u hu) hline
    · have hne : t ≠ u := fun heq => absurd (heq ▸ htext) (lt_irrefl _)
      refine (precedes_or (hmem t ht) hne).resolve_right fun hut => ?_
      exact lt_asymm htext (htexts u hu t ht hline.symm hut)

end Region

/-- What is reported when a scope is closed are the first declarations of the names that nothing
reads. Those on different lines are reported in the order of the source, and all of them are if and
only if of two on one line the one that comes first in the source has the smaller text. -/
theorem unused_reports_follow_source_iff (source : String) (fresh : NodeId) :
    let program := (parse fresh (Lexer.tokens source)).statements
    let closings := Resolution.stmtsClosings {} program []
    (resolve program).faults.filter Diagnostic.isNeverUsed = closings.flatMap Closing.reports ∧
      ∀ c ∈ closings, ∀ region ∈ c.region,
        (∀ t, t ∈ c.scope.unused ↔ region.Unread t) ∧
        c.scope.unused.Pairwise (fun t u => t.line ≠ u.line → region.Precedes t u) ∧
        (c.scope.unused.Pairwise region.Precedes ↔ ∀ t u, region.Unread t → region.Unread u →
          t.line = u.line → region.Precedes t u → t.lexeme < u.lexeme) := by
  intro program closings
  have hspelled : ∀ t ∈ Lexer.tokens source, t.Spelled := fun _ => Lexer.spelled_of_mem_tokens
  have htracks := Resolution.tracks_stmts {} .outside [] program (wellFormed_parse hspelled fresh)
  refine ⟨htracks.reported [], fun c hc region hregion => ?_⟩
  obtain ⟨-, hsorted, hunused⟩ := htracks.exact [] .nil (by simp [Scopes.Regular]) c hc _ (.refl _)
  have hmem : ∀ t, t ∈ c.scope.unused ↔ region.Unread t := by
    intro t
    rw [hunused t]
    constructor
    · rintro ⟨region', hregion', h⟩
      rwa [Option.mem_unique hregion hregion']
    · exact fun h => ⟨region, hregion, h⟩
  have hlines : region.declarations.Pairwise fun t u => t.line ≤ u.line := by
    have hclosed : region ∈ Resolution.closed closings := List.mem_filterMap.2 ⟨c, hc, hregion⟩
    obtain ⟨p, hp, hr⟩ := (Resolution.mem_closed_stmts {} [] program [] region).1 hclosed
    have hbody := (isBody_parse hspelled fresh).1
    have hsublist := hbody.ordered.inside region ⟨[], p, hp, hr⟩
    exact (Lexer.pairwise_line_itemsFrom _ 1).2.sublist hsublist
  have hdeclared : ∀ t ∈ c.scope.unused, t ∈ region.declarations := fun t ht =>
    ((hmem t).1 ht).mem_declarations
  refine ⟨hmem, hsorted.imp_of_mem fun {t u} ht hu hbefore hne => ?_, ?_⟩
  · exact Region.precedes_of_line_lt hlines (hdeclared t ht) (hdeclared u hu)
      (hbefore.resolve_right fun h => hne h.1)
  · rw [Region.pairwise_precedes_iff hsorted hdeclared hlines]
    constructor
    · exact fun h t u ht hu => h t ((hmem t).2 ht) u ((hmem u).2 hu)
    · exact fun h t ht u hu => h t u ((hmem t).1 ht) ((hmem u).1 hu)

/-- Two names that are declared on one line, the later one of which has the smaller text. -/
theorem unused_reports_against_source :
    (resolve (parse 0 (Lexer.tokens "\x7b var b; var a; \x7d")).statements).faults =
        [.scoping ⟨1, .lexeme "a"⟩ .neverUsed, .scoping ⟨1, .lexeme "b"⟩ .neverUsed] ∧
      ∃ c ∈ Resolution.stmtsClosings {}
          (parse 0 (Lexer.tokens "\x7b var b; var a; \x7d")).statements [],
        ∃ region ∈ c.region, region.declarations.map Token.lexeme = ["b", "a"] ∧
          c.scope.unused.map Token.lexeme = ["a", "b"] ∧
            ¬ c.scope.unused.Pairwise region.Precedes := by
  decide +kernel

end Lox
