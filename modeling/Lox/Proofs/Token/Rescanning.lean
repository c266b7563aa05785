import Lox.Proofs.Token.Lines
import Lox.Proofs.Token.Munch

/-!
# Texts put together

A line end between two sources that leave no string open keeps them apart, and so does a blank
between two lexemes: only a string has a blank inside, and a string goes no further than the next
quote. So the items of two sources with a line end between them are those of the first and then
those of the second, and the lexemes of a source are scanned again from a text that has them with
blanks between.
-/

namespace Lox.Lexer

variable {behind sep text : List Char} {kind : Token.Kind}

/-! ## A line end between sources -/

/-- A source that is not told to leave a string open has no piece that is an open string. -/
theorem closed_of_scan {source : String}
    (h : ∀ line, .error (.lexical line .unterminatedString) ∉ scan source) :
    ∀ p ∈ pieces source.toList, p.cls ≠ .unclosedString := by
  intro p hp hcls
  obtain ⟨k, hk⟩ := mem_itemsFrom hp 1
  exact h k (hk _ (by simp [Piece.item?, hcls]))

/-- Of two sources with a line end between them, the first of which leaves no string open, the
items are those of the first without the mark of the end, and then those of the second, as many
lines further down as the first source and the line end have. -/
theorem scan_lineEnd (first second : String)
    (h : ∀ line, .error (.lexical line .unterminatedString) ∉ scan first) :
    (scan first).getLast? = some (.ok (Token.endMark (1 + first.toList.count '\n'))) ∧
      scan (first ++ "\n" ++ second) = (scan first).dropLast ++
        (scan second).map (Item.moveDown (1 + first.toList.count '\n')) := by
  obtain ⟨front, last, hitems, -, hmore⟩ := scan_append_lineEnd (closed_of_scan h)
  have hlast : (scan first).getLast? = some (.ok (Token.endMark (1 + first.toList.count '\n'))) :=
    getLast?_itemsFrom 1 first.toList
  refine ⟨hlast, ?_⟩
  rw [hitems, List.getLast?_concat] at hlast
  have hmark : last = 1 + first.toList.count '\n' := by
    simpa [Token.endMark, Token.ofSymbol] using hlast
  rw [hmore, hitems, List.dropLast_concat, hmark]

/-- A string over two lines, a fault and a comment with a quote in the first source, and a fault on
the second line of the other one. -/
theorem scan_lineEnd_comment :
    (∀ line, .error (.lexical line .unterminatedString) ∉ scan "\"x\ny\"@//\"") ∧
      scan ("\"x\ny\"@//\"" ++ "\n" ++ "c\n@") =
        (scan "\"x\ny\"@//\"").dropLast ++ (scan "c\n@").map (Item.moveDown 2) := by
  have hclosed : ∀ line, .error (.lexical line .unterminatedString) ∉ scan "\"x\ny\"@//\"" := by
    have hscan : scan "\"x\ny\"@//\"" = [.ok ⟨.string "x\ny", "\"x\ny\"", 2⟩,
        .error (.lexical 2 (.unexpectedCharacter '@')), .ok (Token.endMark 2)] := rfl
    simp [hscan]
  exact ⟨hclosed, (scan_lineEnd _ "c\n@" hclosed).2⟩

/-! ## Blanks between lexemes -/

/-- A text that a lexeme ends in front of: nothing, or a blank. -/
def Apart (sep : List Char) : Prop := ∀ c ∈ sep.head?, c = ' '

/-- Only strings have blanks inside. -/
theorem Lexeme.string_of_blank (h : Lexeme behind text kind) (hblank : ' ' ∈ text) :
    ∃ body, text = '"' :: (body ++ ['"']) ∧ '"' ∉ body := by
  have hdigit : ¬ IsDigit ' ' := fun h => absurd h.1 (by decide)
  have hword : continuesName ' ' = false := by decide
  cases h with
  | symbol hmem =>
    have hall : ∀ entry ∈ symbolTexts, ' ' ∉ entry.1 := by decide
    exact absurd hblank (hall _ hmem)
  | slash => exact absurd hblank (by decide)
  | whole _ hdigits => exact absurd (hdigits _ hblank) hdigit
  | decimal _ hdigits _ hplaces =>
    rcases List.mem_append.1 hblank with hmem | hmem
    · exact absurd (hdigits _ hmem) hdigit
    · rcases List.mem_cons.1 hmem with hdot | hmem
      · exact absurd hdot (by decide)
      · exact absurd (hplaces _ hmem) hdigit
  | keyword hmem =>
    obtain ⟨c, text', htext, hc, hcontinues⟩ := keywords_name _ hmem
    rw [String.toList_ofList] at htext
    subst htext
    rcases List.mem_cons.1 hblank with rfl | hmem
    · exact absurd hc (by decide)
    · rw [hcontinues _ hmem] at hword
      cases hword
  | @name c text hc htext _ =>
    rcases List.mem_cons.1 hblank with rfl | hmem
    · exact absurd (isLetter_iff.1 hc) (by decide)
    · rw [continuesName_iff.1 (htext _ hmem)] at hword
      cases hword
  | string hbody => exact ⟨_, rfl, hbody⟩

/-- What starts with a quote is a string. -/
theorem Lexeme.string_of_quote (h : Lexeme behind ('"' :: text) kind) :
    ∃ body, text = body ++ ['"'] ∧ '"' ∉ body := by
  have hdigit : ¬ IsDigit '"' := fun h => absurd h.1 (by decide)
  have hletter : ¬ startsName '"' = true := by decide
  generalize hfull : '"' :: text = full at h
  cases h with
  | symbol hmem =>
    have hall : ∀ entry ∈ symbolTexts, entry.1.head? ≠ some '"' := by decide
    exact absurd (congrArg List.head? hfull).symm (hall _ hmem)
  | slash => cases hfull
  | whole _ hdigits => exact absurd (hdigits '"' (by simp [← hfull])) hdigit
  | decimal hne hdigits =>
    obtain ⟨d, digits, rfl⟩ := List.exists_cons_of_ne_nil hne
    obtain ⟨rfl, -⟩ := List.cons.inj hfull
    exact absurd (hdigits '"' List.mem_cons_self) hdigit
  | keyword hmem =>
    obtain ⟨c, text', htext, hc, -⟩ := keywords_name _ hmem
    rw [String.toList_ofList, ← hfull] at htext
    obtain ⟨rfl, -⟩ := List.cons.inj htext
    exact absurd hc hletter
  | name hc =>
    obtain ⟨rfl, -⟩ := List.cons.inj hfull
    exact absurd (isLetter_iff.1 hc) hletter
  | string hbody => exact ⟨_, (List.cons.inj hfull).2, hbody⟩

theorem Lexeme.ne_nil (h : Lexeme behind text kind) : text ≠ [] := by
  cases h with
  | symbol hmem =>
    have hall : ∀ entry ∈ symbolTexts, entry.1 ≠ [] := by decide
    exact hall _ hmem
  | whole hne => exact hne
  | decimal => simp
  | keyword hmem =>
    obtain ⟨c, text', htext, -⟩ := keywords_name _ hmem
    rw [String.toList_ofList] at htext
    exact htext ▸ List.cons_ne_nil _ _
  | slash | name | string => exact List.cons_ne_nil _ _

/-- A lexeme is one in front of a blank as well. -/
theorem Lexeme.inFrontOf (h : Lexeme behind text kind) (hsep : Apart sep) :
    Lexeme sep text kind := by
  cases h with
  | symbol hmem => exact .symbol hmem
  | slash => exact .slash fun hhead => absurd (hsep _ hhead) (by decide)
  | whole hne hdigits => exact .whole hne hdigits
  | decimal hne hdigits hne' hplaces => exact .decimal hne hdigits hne' hplaces
  | keyword hmem => exact .keyword hmem
  | name hc htext hnot => exact .name hc htext hnot
  | string hbody => exact .string hbody

/-- No lexeme goes on with a blank and is a lexeme again. -/
theorem Lexeme.not_lexeme_blank {behind' more : List Char} {kind' : Token.Kind}
    (h : Lexeme behind text kind) : ¬ Lexeme behind' (text ++ ' ' :: more) kind' := by
  intro h'
  obtain ⟨body, hbody, hquote⟩ := h'.string_of_blank (by simp)
  obtain ⟨c, text, rfl⟩ := List.exists_cons_of_ne_nil h.ne_nil
  obtain ⟨rfl, hrest⟩ := List.cons.inj hbody
  obtain ⟨body', rfl, -⟩ := h.string_of_quote
  have hsplit : body' ++ ('"' :: ' ' :: more) = body ++ ['"'] := by simpa using hrest
  -- the quote that ends the first string is inside the second one
  rcases List.append_eq_append_iff.1 hsplit with ⟨_ | ⟨d, as⟩, hbody', hlast⟩ | ⟨bs, -, hlast⟩
  · cases hlast
  · obtain ⟨rfl, -⟩ := List.cons.inj hlast
    exact hquote (by simp [hbody'])
  · have hlength := congrArg List.length hlast
    simp only [List.length_append, List.length_cons, List.length_nil] at hlength
    omega

/-- The first piece of a lexeme in front of a blank is the lexeme. -/
theorem Lexeme.firstPiece_eq {c : Char} (h : Lexeme behind (c :: text) kind) (hsep : Apart sep) :
    firstPiece c (text ++ sep) = ⟨c :: text, .lexeme kind⟩ := by
  have hat : LexemeAt (c :: (text ++ sep)) (c :: text) kind := ⟨sep, rfl, h.inFrontOf hsep⟩
  obtain ⟨⟨kind', hcls, hkind⟩, hlength⟩ := yields_firstPiece hat
  obtain ⟨rest, hsplit⟩ := prefix_firstPiece c (text ++ sep)
  have hlexeme := lexeme_firstPiece hsplit hcls
  have htext : c :: text = (firstPiece c (text ++ sep)).text := by
    rw [← List.cons_append] at hsplit
    rcases List.append_eq_append_iff.1 hsplit with ⟨as, has, -⟩ | ⟨_ | ⟨d, bs⟩, hbs, hrest⟩
    · have hnil : as = [] := by
        rw [has, List.length_append] at hlength
        exact List.length_eq_zero_iff.1 (by omega)
      rw [has, hnil, List.append_nil]
    · rw [hbs, List.append_nil]
    · obtain rfl : d = ' ' := hsep d (by rw [hrest]; rfl)
      rw [hbs] at hlexeme
      exact absurd hlexeme h.not_lexeme_blank
  obtain rfl := hkind htext
  generalize firstPiece c (text ++ sep) = piece at hcls htext
  obtain ⟨_, _⟩ := piece
  simp_all

theorem Lexeme.pieces_append (h : Lexeme behind text kind) (hsep : Apart sep) :
    pieces (text ++ sep) = ⟨text, .lexeme kind⟩ :: pieces sep := by
  obtain ⟨c, text, rfl⟩ := List.exists_cons_of_ne_nil h.ne_nil
  have hpiece := h.firstPiece_eq hsep
  have hsplit : (firstPiece c (text ++ sep)).text ++ sep = c :: (text ++ sep) := by
    rw [hpiece, List.cons_append]
  rw [List.cons_append, pieces_cons hsplit, hpiece]

theorem itemsFrom_blank (line : Nat) (cs : List Char) :
    itemsFrom line (pieces (' ' :: cs)) = itemsFrom line (pieces cs) := by
  have hpiece : firstPiece ' ' cs = ⟨[' '], .blank⟩ := firstPiece_blank (by simp) cs
  have hsplit : (firstPiece ' ' cs).text ++ cs = ' ' :: cs := by
    rw [hpiece]
    rfl
  rw [pieces_cons hsplit, hpiece]
  rfl

/-- Behind the first of some texts with blanks between there is nothing or a blank, and then there
are the others. -/
theorem intercalate_blank (text : List Char) (texts : List (List Char)) :
    ∃ sep, Apart sep ∧ [' '].intercalate (text :: texts) = text ++ sep ∧
      ∀ line, itemsFrom line (pieces sep) = itemsFrom line (pieces ([' '].intercalate texts)) := by
  cases texts with
  | nil => exact ⟨[], (fun _ h => by cases h), by simp [List.intercalate], fun _ => rfl⟩
  | cons next texts =>
    refine ⟨' ' :: [' '].intercalate (next :: texts), ?_, ?_, fun line => itemsFrom_blank line _⟩
    · rintro _ ⟨⟩
      rfl
    · simp [List.intercalate]

/-- Lexemes with blanks between are the tokens that they were. -/
theorem itemsFrom_intercalate {ts : List Token}
    (h : ∀ t ∈ ts, ∃ behind, Lexeme behind t.lexeme.toList t.kind) (line : Nat) :
    ∃ (us : List Token) (last : Nat),
      itemsFrom line (pieces ([' '].intercalate (ts.map fun t => t.lexeme.toList))) =
        us.map .ok ++ [.ok (Token.endMark last)] ∧
      us.map (fun t => (t.kind, t.lexeme)) = ts.map fun t => (t.kind, t.lexeme) := by
  induction ts generalizing line with
  | nil => exact ⟨[], line, rfl, rfl⟩
  | cons t ts ih =>
    obtain ⟨⟨behind, hlexeme⟩, hlexemes⟩ := List.forall_mem_cons.1 h
    obtain ⟨sep, hsep, htexts, hitems⟩ :=
      intercalate_blank t.lexeme.toList (ts.map fun t => t.lexeme.toList)
    let piece : Piece := ⟨t.lexeme.toList, .lexeme t.kind⟩
    obtain ⟨us, last, hus, hsame⟩ := ih hlexemes (line + piece.newlines)
    refine ⟨⟨t.kind, t.lexeme, line + piece.newlines⟩ :: us, last, ?_, ?_⟩
    · rw [List.map_cons, htexts, hlexeme.pieces_append hsep, itemsFrom, hitems, hus]
      simp [Piece.item?, piece]
    · rw [List.map_cons, List.map_cons, hsame]

theorem lexeme_of_item {source : List Char} {p : Piece} {k : Nat} {t : Token}
    (hp : p ∈ pieces source) (h : p.item? k = some (.ok t)) :
    ∃ behind, Lexeme behind t.lexeme.toList t.kind := by
  obtain ⟨c, rest, rfl⟩ := exists_firstPiece_of_mem hp
  obtain ⟨behind, hsplit⟩ := prefix_firstPiece c rest
  obtain ⟨hcls, htext⟩ := item?_eq_ok h
  rw [htext, String.toList_ofList]
  exact ⟨behind, lexeme_firstPiece hsplit hcls⟩

/-- The lexemes of a source, with a blank between any two of them, are scanned as the tokens that
they are in the source, and nothing is wrong with them. -/
theorem scan_lexemes (source : String) :
    ∃ (ts us : List Token) (n last : Nat), tokens source = ts ++ [Token.endMark n] ∧
      scan (" ".intercalate (ts.map Token.lexeme)) = us.map .ok ++ [.ok (Token.endMark last)] ∧
      us.map (fun t => (t.kind, t.lexeme)) = ts.map fun t => (t.kind, t.lexeme) := by
  obtain ⟨front, n, hitems, hfront, -⟩ := itemsFrom_append (pieces source.toList) 1
  have htokens : tokens source = tokensOf front ++ [Token.endMark n] := by
    rw [tokens, scan, hitems, tokensOf, List.filterMap_append]
    rfl
  have hlexemes : ∀ t ∈ tokensOf front, ∃ behind, Lexeme behind t.lexeme.toList t.kind := by
    intro t ht
    obtain ⟨item, hitem, hok⟩ := List.mem_filterMap.1 ht
    cases item with
    | error d => cases hok
    | ok t' =>
      obtain rfl := Option.some.inj hok
      obtain ⟨p, hp, k, hk⟩ := hfront _ hitem
      exact lexeme_of_item hp hk
  have htext : (" ".intercalate ((tokensOf front).map Token.lexeme)).toList =
      [' '].intercalate ((tokensOf front).map fun t => t.lexeme.toList) := by
    simp [String.toList_intercalate, Function.comp_def]
  obtain ⟨us, last, hscan, hsame⟩ := itemsFrom_intercalate hlexemes 1
  refine ⟨tokensOf front, us, n, last, htokens, ?_, hsame⟩
  rw [scan, htext]
  exact hscan

end Lox.Lexer
