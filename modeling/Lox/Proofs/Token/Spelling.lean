import Lox.Proofs.Syntax.Tree
import Lox.Token.Lexer

/-!
# Tokens of a source are spelled as their kinds ask for

A name that is read from a source is never `this` or `super`, and the two keywords are. All
other lexemes are of kinds for which no spelling is asked for.
-/

namespace Lox.Lexer

variable {s : Symbol} {c : Char} {rest : List Char} {kind : Token.Kind}

theorem symbolOfName_ne_identifier {name : String} (h : symbolOfName name = .identifier) :
    name ≠ "this" ∧ name ≠ "super" := by
  constructor
  · rintro rfl
    cases h
  · rintro rfl
    cases h

/-- A keyword is the name it is listed with. -/
theorem mem_keywords_of_symbolOfName {name : String} (h : symbolOfName name = s)
    (hs : s ≠ .identifier) : (name, s) ∈ keywords := by
  unfold symbolOfName at h
  cases hl : keywords.lookup name with
  | none =>
    rw [hl] at h
    exact absurd h.symm hs
  | some s' =>
    rw [hl] at h
    obtain rfl : s' = s := h
    obtain ⟨l, r, hlr, -⟩ := List.lookup_eq_some_iff.1 hl
    rw [hlr]
    simp

/-- The text of a name fits the symbol that the name is. -/
theorem spelled_name (name : String) (line : Nat) :
    (Token.mk (.symbol (symbolOfName name)) name line).Spelled where
  name h := symbolOfName_ne_identifier (by simpa [Token.is] using h)
  this h := by
    have hs : symbolOfName name = .kwThis := by simpa [Token.is] using h
    simpa [keywords] using mem_keywords_of_symbolOfName hs (by decide)
  super h := by
    have hs : symbolOfName name = .kwSuper := by simpa [Token.is] using h
    simpa [keywords] using mem_keywords_of_symbolOfName hs (by decide)

/-- The symbols that only a name may be, and the mark of the end, which no text is. -/
def reservedSymbols : List Symbol := [.identifier, .kwThis, .kwSuper, .eof]

theorem spelled_symbol (lexeme : String) (line : Nat) (h : s ∉ reservedSymbols) :
    (Token.mk (.symbol s) lexeme line).Spelled where
  name hs := absurd (by simp_all [Token.is, reservedSymbols]) h
  this hs := absurd (by simp_all [Token.is, reservedSymbols]) h
  super hs := absurd (by simp_all [Token.is, reservedSymbols]) h

theorem spelled_string (text lexeme : String) (line : Nat) :
    (Token.mk (.string text) lexeme line).Spelled where
  name h := nomatch h
  this h := nomatch h
  super h := nomatch h

theorem spelled_number (x : Double) (lexeme : String) (line : Nat) :
    (Token.mk (.number x) lexeme line).Spelled where
  name h := nomatch h
  this h := nomatch h
  super h := nomatch h

theorem punctuator?_not_reserved (h : punctuator? c = some s) : s ∉ reservedSymbols := by
  unfold punctuator? at h
  split at h
  all_goals
    first
      | obtain rfl := Option.some.inj h
        decide
      | cases h

theorem operator?_not_reserved {op : Operator} (h : operator? c = some op) :
    op.long ∉ reservedSymbols ∧ op.short ∉ reservedSymbols := by
  unfold operator? at h
  split at h
  all_goals
    first
      | obtain rfl := Option.some.inj h
        decide
      | cases h

/-- What a lexeme may be: a symbol that is no name, a name, a string or a number. -/
theorem kind_firstPiece (h : (firstPiece c rest).cls = .lexeme kind) :
    (∃ s, s ∉ reservedSymbols ∧ kind = .symbol s) ∨
      kind = .symbol (symbolOfName (String.ofList (firstPiece c rest).text)) ∨
      (∃ text, kind = .string text) ∨ ∃ x, kind = .number x := by
  unfold firstPiece at h ⊢
  split at h
  case h_1 s hs =>
    obtain rfl := Piece.Class.lexeme.inj h
    exact .inl ⟨s, punctuator?_not_reserved hs, rfl⟩
  case h_2 op _ hop =>
    have hop := operator?_not_reserved hop
    unfold operatorPiece at h
    split at h
    · obtain rfl := Piece.Class.lexeme.inj h
      exact .inl ⟨_, hop.1, rfl⟩
    · obtain rfl := Piece.Class.lexeme.inj h
      exact .inl ⟨_, hop.2, rfl⟩
  case h_3 =>
    split at h
    · cases h
    split at h
    · unfold slashPiece at h
      split at h
      · cases h
      · obtain rfl := Piece.Class.lexeme.inj h
        exact .inl ⟨.slash, by decide, rfl⟩
    split at h
    · simp only [stringPiece] at h
      split at h
      · obtain rfl := Piece.Class.lexeme.inj h
        exact .inr (.inr (.inl ⟨_, rfl⟩))
      · cases h
    split at h
    · obtain rfl := Piece.Class.lexeme.inj h
      exact .inr (.inr (.inr ⟨_, rfl⟩))
    split at h
    · obtain rfl := Piece.Class.lexeme.inj h
      simp_all only [if_false, if_true]
      exact .inr (.inl rfl)
    · cases h

theorem spelled_firstPiece (line : Nat) (h : (firstPiece c rest).cls = .lexeme kind) :
    (Token.mk kind (String.ofList (firstPiece c rest).text) line).Spelled := by
  rcases kind_firstPiece h with ⟨s, hs, rfl⟩ | rfl | ⟨text, rfl⟩ | ⟨x, rfl⟩
  · exact spelled_symbol _ _ hs
  · exact spelled_name _ _
  · exact spelled_string _ _ _
  · exact spelled_number _ _ _

theorem symbolOfName_ne_eof (name : String) : symbolOfName name ≠ .eof := by
  intro h
  simpa [keywords] using mem_keywords_of_symbolOfName h (by decide)

/-- No piece of a source is a mark of the end. -/
theorem kind_firstPiece_ne_eof (h : (firstPiece c rest).cls = .lexeme kind) :
    kind ≠ .symbol .eof := by
  rcases kind_firstPiece h with ⟨s, hs, rfl⟩ | rfl | ⟨text, rfl⟩ | ⟨x, rfl⟩
  · rintro ⟨⟩
    exact hs (by decide)
  · exact fun heof => symbolOfName_ne_eof _ (Token.Kind.symbol.inj heof)
  · nofun
  · nofun

/-- Every piece of a source is the first piece of some text. -/
theorem exists_firstPiece_of_mem {p : Piece} {skip : Nat} {cs : List Char}
    (h : p ∈ piecesAfter skip cs) : ∃ c rest, p = firstPiece c rest := by
  induction cs generalizing skip with
  | nil => simp [piecesAfter] at h
  | cons c rest ih =>
    cases skip with
    | succ skip => exact ih h
    | zero =>
      rcases List.mem_cons.1 h with rfl | h
      · exact ⟨c, rest, rfl⟩
      · exact ih h

theorem spelled_of_mem_itemsFrom {ps : List Piece} {line : Nat} {t : Token}
    (hps : ∀ p ∈ ps, ∃ c rest, p = firstPiece c rest) (h : .ok t ∈ itemsFrom line ps) :
    t.Spelled := by
  induction ps generalizing line with
  | nil =>
    obtain rfl : t = Token.endMark line := by simpa [itemsFrom] using h
    exact ⟨nofun, nofun, nofun⟩
  | cons p ps ih =>
    rw [itemsFrom, List.mem_append] at h
    rcases h with h | h
    · obtain ⟨c, rest, rfl⟩ := hps p List.mem_cons_self
      rw [Option.mem_toList, Piece.item?] at h
      split at h
      case h_3 kind hk =>
        obtain rfl := Except.ok.inj (Option.some.inj h)
        exact spelled_firstPiece _ hk
      all_goals cases h
    · exact ih (fun p hp => hps p (List.mem_cons_of_mem _ hp)) h

/-- The tokens of a source are spelled well. -/
theorem spelled_of_mem_tokens {source : String} {t : Token} (h : t ∈ tokensOf (scan source)) :
    t.Spelled := by
  obtain ⟨item, hitem, ht⟩ := List.mem_filterMap.1 h
  cases item with
  | error d => cases ht
  | ok t' =>
    obtain rfl := Option.some.inj ht
    exact spelled_of_mem_itemsFrom (fun p hp => exists_firstPiece_of_mem hp) hitem

end Lox.Lexer
