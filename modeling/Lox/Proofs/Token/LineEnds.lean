import Lox.Proofs.Syntax.Relabeling
import Lox.Proofs.Token.Spelling

/-!
# Sources one behind the other

A line end ends every lexeme but an open string, and every comment. So if no string of a source
is left open, the pieces of the source with another one on the lines behind it are the pieces
of the two. The items of the second source are the same as by itself, further down.
-/

namespace Lox.Lexer

variable {p : Char → Bool} {c : Char} {source : String}

/-! ## Pieces -/

theorem not_mem_takeWhile (h : p c = false) (cs : List Char) : c ∉ cs.takeWhile p := fun hmem =>
  Bool.false_ne_true (h.symm.trans (List.all_eq_true.1 List.all_takeWhile c hmem))

theorem takeWhile_append_lineEnd (h : p '\n' = false) (front back : List Char) :
    (front ++ '\n' :: back).takeWhile p = front.takeWhile p := by
  induction front with
  | nil => simp [h]
  | cons c front ih => simp only [List.cons_append, List.takeWhile_cons, ih]

theorem dropWhile_append_lineEnd (h : p '\n' = false) (front back : List Char) :
    (front ++ '\n' :: back).dropWhile p = front.dropWhile p ++ '\n' :: back := by
  induction front with
  | nil => simp [h]
  | cons c front ih =>
    simp only [List.cons_append, List.dropWhile_cons, ih]
    split <;> rfl

theorem head?_append_lineEnd (h : c ≠ '\n') (rest back : List Char) :
    (rest ++ '\n' :: back).head? = some c ↔ rest.head? = some c := by
  cases rest with
  | nil => simp [Ne.symm h]
  | cons d rest => rfl

theorem fraction_append_lineEnd (rest back : List Char) :
    fraction (rest ++ '\n' :: back) = fraction rest := by
  rcases rest with _ | ⟨c, _ | ⟨d, rest⟩⟩
  · simp [fraction]
  · by_cases hc : c = '.'
    · subst hc
      simp [fraction, show Char.isDigit '\n' = false from rfl]
    · simp [fraction, hc]
  · by_cases hc : c = '.'
    · subst hc
      simp only [List.cons_append, fraction]
      rw [← List.cons_append, takeWhile_append_lineEnd rfl]
    · simp [fraction, hc]

theorem numberText_append_lineEnd (source back : List Char) :
    numberText (source ++ '\n' :: back) = numberText source := by
  unfold numberText
  rw [takeWhile_append_lineEnd rfl, dropWhile_append_lineEnd rfl, fraction_append_lineEnd]

theorem stringPiece_append_lineEnd {rest : List Char} (back : List Char)
    (h : (stringPiece rest).cls ≠ .unclosedString) :
    stringPiece (rest ++ '\n' :: back) = stringPiece rest := by
  have hclosed : (rest.takeWhile (· != '"')).length < rest.length := by
    by_cases hlen : (rest.takeWhile (· != '"')).length < rest.length
    · exact hlen
    · simp [stringPiece, hlen] at h
  have hbody : (rest ++ '\n' :: back).takeWhile (· != '"') = rest.takeWhile (· != '"') := by
    rw [List.takeWhile_append, if_neg (Nat.ne_of_lt hclosed)]
  simp only [stringPiece, hbody, if_pos hclosed]
  rw [if_pos]
  simp only [List.length_append]
  omega

theorem operator?_second_ne_lineEnd {op : Operator} (h : operator? c = some op) :
    op.second ≠ '\n' := by
  unfold operator? at h
  split at h
  all_goals
    first
      | obtain rfl := Option.some.inj h
        decide
      | cases h

/-- The first piece of a source ends before the line does, unless it is an open string. -/
theorem firstPiece_append_lineEnd {rest : List Char} (back : List Char)
    (h : (firstPiece c rest).cls ≠ .unclosedString) :
    firstPiece c (rest ++ '\n' :: back) = firstPiece c rest := by
  unfold firstPiece at h ⊢
  split
  case h_1 => rfl
  case h_2 op _ hop =>
    simp only [operatorPiece, head?_append_lineEnd (operator?_second_ne_lineEnd hop)]
  case h_3 hp ho =>
    simp only [hp, ho] at h
    by_cases hblank : isBlank c = true
    · simp only [if_pos hblank]
    simp only [if_neg hblank] at h ⊢
    by_cases hslash : c = '/'
    · simp only [if_pos hslash, slashPiece, head?_append_lineEnd (show '/' ≠ '\n' by decide),
        takeWhile_append_lineEnd (p := (· != '\n')) rfl]
    simp only [if_neg hslash] at h ⊢
    by_cases hquote : c = '"'
    · simp only [if_pos hquote] at h ⊢
      exact stringPiece_append_lineEnd back h
    simp only [if_neg hquote, ← List.cons_append, numberText_append_lineEnd,
      takeWhile_append_lineEnd (p := continuesName) rfl]

theorem prefix_fraction (cs : List Char) : fraction cs <+: cs := by
  unfold fraction
  split
  · split
    · exact List.cons_prefix_cons.2 ⟨rfl, List.takeWhile_prefix _⟩
    · exact List.nil_prefix
  · exact List.nil_prefix

theorem prefix_numberText (cs : List Char) : numberText cs <+: cs := by
  have hfraction := prefix_fraction (cs.dropWhile Char.isDigit)
  have h := (List.prefix_append_right_inj (cs.takeWhile Char.isDigit)).2 hfraction
  rwa [List.takeWhile_append_dropWhile] at h

/-- A string ends with the next quote, if there is one. -/
theorem stringPiece_cases (rest : List Char) :
    (rest.takeWhile (· != '"') = rest ∧ stringPiece rest = ⟨'"' :: rest, .unclosedString⟩) ∨
      ∃ behind, rest.takeWhile (· != '"') ++ '"' :: behind = rest ∧ stringPiece rest =
        ⟨'"' :: (rest.takeWhile (· != '"') ++ ['"']),
          .lexeme (.string (String.ofList (rest.takeWhile (· != '"'))))⟩ := by
  have hrest := List.takeWhile_append_dropWhile (p := (· != '"')) (l := rest)
  have hlength := congrArg List.length hrest
  rw [List.length_append] at hlength
  cases hbehind : rest.dropWhile (· != '"') with
  | nil =>
    rw [hbehind, List.append_nil] at hrest
    rw [hbehind, List.length_nil] at hlength
    exact .inl ⟨hrest, if_neg (by omega)⟩
  | cons d behind =>
    have hd := List.head_dropWhile_not (· != '"') (l := rest) (by simp [hbehind])
    simp only [hbehind, List.head_cons, bne_eq_false_iff_eq] at hd
    rw [hbehind, hd] at hrest
    rw [hbehind, List.length_cons] at hlength
    exact .inr ⟨behind, hrest, if_pos (by omega)⟩

theorem prefix_stringPiece (rest : List Char) : (stringPiece rest).text <+: '"' :: rest := by
  rcases stringPiece_cases rest with ⟨-, heq⟩ | ⟨behind, hrest, heq⟩
  · exact heq ▸ List.prefix_rfl
  · rw [heq]
    refine List.cons_prefix_cons.2 ⟨rfl, behind, ?_⟩
    rw [List.append_assoc]
    exact hrest

/-- A piece is the front of what is left of the source. -/
theorem prefix_firstPiece (c : Char) (rest : List Char) :
    (firstPiece c rest).text <+: c :: rest := by
  have hone : [c] <+: c :: rest := ⟨rest, rfl⟩
  unfold firstPiece
  split
  · exact hone
  · rename_i op _ _
    unfold operatorPiece
    split
    case isTrue hhead =>
      obtain ⟨rest, rfl⟩ := List.head?_eq_some_iff.1 hhead
      exact ⟨rest, rfl⟩
    case isFalse => exact hone
  · split
    · exact hone
    split
    case isTrue hslash =>
      subst hslash
      unfold slashPiece
      split
      · exact List.cons_prefix_cons.2 ⟨rfl, List.takeWhile_prefix _⟩
      · exact hone
    split
    case isTrue hquote =>
      subst hquote
      exact prefix_stringPiece rest
    split
    · exact prefix_numberText (c :: rest)
    split
    · exact List.cons_prefix_cons.2 ⟨rfl, List.takeWhile_prefix _⟩
    · exact hone

/-- If no string is left open, a line end separates the pieces before it from those behind it. -/
theorem piecesAfter_append_lineEnd {skip : Nat} {front : List Char} (back : List Char)
    (hskip : skip ≤ front.length)
    (h : ∀ p ∈ piecesAfter skip front, p.cls ≠ .unclosedString) :
    piecesAfter skip (front ++ '\n' :: back) =
      piecesAfter skip front ++ ⟨['\n'], .blank⟩ :: pieces back := by
  induction front generalizing skip with
  | nil =>
    obtain rfl := Nat.le_zero.1 hskip
    rfl
  | cons c rest ih =>
    cases skip with
    | succ skip => exact ih (Nat.le_of_succ_le_succ hskip) h
    | zero =>
      have hlen : (firstPiece c rest).text.length ≤ rest.length + 1 :=
        (prefix_firstPiece c rest).length_le
      simp only [piecesAfter, List.mem_cons, forall_eq_or_imp] at h
      simp only [List.cons_append, piecesAfter, firstPiece_append_lineEnd back h.1]
      rw [ih (by omega) h.2]

theorem pieces_append_lineEnd {front : List Char} (back : List Char)
    (h : ∀ p ∈ pieces front, p.cls ≠ .unclosedString) :
    pieces (front ++ '\n' :: back) = pieces front ++ ⟨['\n'], .blank⟩ :: pieces back :=
  piecesAfter_append_lineEnd back (Nat.zero_le _) h

/-! ## Items -/

/-- An item on a later line. -/
def Item.moveDown (lines : Nat) : Item → Item
  | .ok t => .ok (t.relabel (.move lines 0))
  | .error (.lexical line fault) => .error (.lexical (line + lines) fault)
  | .error d => .error d

theorem item?_add (p : Piece) (line lines : Nat) :
    p.item? (line + lines) = (p.item? line).map (Item.moveDown lines) := by
  unfold Piece.item?
  split <;> rfl

theorem itemsFrom_add (ps : List Piece) (line lines : Nat) :
    itemsFrom (line + lines) ps = (itemsFrom line ps).map (Item.moveDown lines) := by
  induction ps generalizing line with
  | nil => rfl
  | cons p ps ih =>
    have hline : line + lines + p.newlines = line + p.newlines + lines := Nat.add_right_comm ..
    rw [itemsFrom, itemsFrom, hline, item?_add, ih, List.map_append, Option.toList_map]

/-- The items of pieces end with the mark of the end, and those of further pieces go on from the
line of the mark. -/
theorem itemsFrom_append (ps : List Piece) (line : Nat) :
    ∃ front last, itemsFrom line ps = front ++ [.ok (Token.endMark last)] ∧
      (∀ item ∈ front, ∃ p ∈ ps, ∃ k, p.item? k = some item) ∧
      ∀ qs, itemsFrom line (ps ++ qs) = front ++ itemsFrom last qs := by
  induction ps generalizing line with
  | nil => exact ⟨[], line, rfl, nofun, fun qs => rfl⟩
  | cons p ps ih =>
    obtain ⟨front, last, hitems, hfront, hmore⟩ := ih (line + p.newlines)
    refine ⟨(p.item? (line + p.newlines)).toList ++ front, last, ?_, fun item hitem => ?_,
      fun qs => ?_⟩
    · rw [itemsFrom, hitems, List.append_assoc]
    · rcases List.mem_append.1 hitem with hitem | hitem
      · exact ⟨p, List.mem_cons_self, _, Option.mem_toList.1 hitem⟩
      · obtain ⟨p', hp', hk⟩ := hfront item hitem
        exact ⟨p', List.mem_cons_of_mem _ hp', hk⟩
    · rw [List.cons_append, itemsFrom, hmore, List.append_assoc]

theorem mem_itemsFrom {p : Piece} {ps : List Piece} (h : p ∈ ps) (line : Nat) :
    ∃ k, ∀ item ∈ p.item? k, item ∈ itemsFrom line ps := by
  induction ps generalizing line with
  | nil => cases h
  | cons q ps ih =>
    rcases List.mem_cons.1 h with rfl | h
    · exact ⟨line + p.newlines, fun item hi => List.mem_append_left _ (Option.mem_toList.2 hi)⟩
    · obtain ⟨k, hk⟩ := ih h (line + q.newlines)
      exact ⟨k, fun item hi => List.mem_append_right _ (hk item hi)⟩

theorem not_isEnd_of_piece {source : List Char} {p : Piece} {k : Nat} {t : Token}
    (hp : p ∈ pieces source) (h : p.item? k = some (.ok t)) : t.isEnd = false := by
  obtain ⟨c, rest, rfl⟩ := exists_firstPiece_of_mem hp
  unfold Piece.item? at h
  split at h
  case h_3 kind hkind =>
    obtain rfl := Except.ok.inj (Option.some.inj h)
    simpa [Token.isEnd, Token.is, ← Bool.not_eq_true, Token.Kind.is_iff] using
      kind_firstPiece_ne_eof hkind
  all_goals cases h

/-- Of two sources with a line end between them, the first of which leaves no string open, the
items are those of the first without the mark of the end, and then those of the second on the
lines behind the mark. -/
theorem scan_append_lineEnd (h : ∀ p ∈ pieces source.toList, p.cls ≠ .unclosedString) :
    ∃ front last, scan source = front ++ [.ok (Token.endMark last)] ∧
      (∀ t, .ok t ∈ front → t.isEnd = false) ∧
      ∀ other, scan (source ++ "\n" ++ other) = front ++ (scan other).map (Item.moveDown last) := by
  obtain ⟨front, last, hitems, hfront, hmore⟩ := itemsFrom_append (pieces source.toList) 1
  refine ⟨front, last, hitems, fun t ht => ?_, fun other => ?_⟩
  · obtain ⟨p, hp, k, hk⟩ := hfront _ ht
    exact not_isEnd_of_piece hp hk
  · have hpieces := pieces_append_lineEnd other.toList h
    have hsource : (source ++ "\n" ++ other).toList = source.toList ++ '\n' :: other.toList := by
      simp
    have hlast : itemsFrom last (⟨['\n'], .blank⟩ :: pieces other.toList) =
        itemsFrom (1 + last) (pieces other.toList) := by
      rw [Nat.add_comm]
      rfl
    rw [scan, hsource, hpieces, hmore, hlast, itemsFrom_add, scan]

/-! ## Tokens -/

theorem closed_of_faultsOf (h : faultsOf (scan source) = []) :
    ∀ p ∈ pieces source.toList, p.cls ≠ .unclosedString := by
  intro p hp hcls
  obtain ⟨k, hk⟩ := mem_itemsFrom hp 1
  have hmem : .error (.lexical k .unterminatedString) ∈ scan source :=
    hk _ (by simp [Piece.item?, hcls])
  have hfault : .lexical k .unterminatedString ∈ faultsOf (scan source) :=
    List.mem_filterMap.2 ⟨_, hmem, rfl⟩
  rw [h] at hfault
  cases hfault

theorem tokensOf_map_moveDown (items : List Item) (lines : Nat) :
    tokensOf (items.map (Item.moveDown lines)) =
      (tokensOf items).map (Token.relabel (.move lines 0)) := by
  induction items with
  | nil => rfl
  | cons item items ih =>
    rcases item with d | t
    · cases d <;> exact ih
    · exact congrArg (t.relabel (.move lines 0) :: ·) ih

theorem faultsOf_map_moveDown {items : List Item} (h : faultsOf items = []) (lines : Nat) :
    faultsOf (items.map (Item.moveDown lines)) = [] := by
  simp only [faultsOf, List.filterMap_eq_nil_iff, List.mem_map] at h ⊢
  rintro _ ⟨item, hitem, rfl⟩
  have hnone := h item hitem
  cases item with
  | error d => simp at hnone
  | ok t => rfl

/-- Of two sources with a line end between them, the tokens are those of the first without the
mark of the end, and then those of the second further down. -/
theorem tokens_append_lineEnd (h : faultsOf (scan source) = []) :
    ∃ front last, tokensOf (scan source) = front ++ [Token.endMark last] ∧
      (∀ t ∈ front, t.isEnd = false) ∧
      ∀ other, faultsOf (scan other) = [] →
        faultsOf (scan (source ++ "\n" ++ other)) = [] ∧
          tokensOf (scan (source ++ "\n" ++ other)) =
            front ++ (tokensOf (scan other)).map (Token.relabel (.move last 0)) := by
  obtain ⟨front, last, hitems, hend, hmore⟩ := scan_append_lineEnd (closed_of_faultsOf h)
  have hfront : faultsOf front = [] := by
    rw [hitems, faultsOf, List.filterMap_append] at h
    exact (List.append_eq_nil_iff.1 h).1
  refine ⟨tokensOf front, last, ?_, fun t ht => ?_, fun other hother => ⟨?_, ?_⟩⟩
  · rw [hitems, tokensOf, List.filterMap_append]
    rfl
  · obtain ⟨item, hitem, ht⟩ := List.mem_filterMap.1 ht
    cases item with
    | error d => cases ht
    | ok t' =>
      obtain rfl := Option.some.inj ht
      exact hend _ hitem
  · rw [hmore, faultsOf, List.filterMap_append]
    exact List.append_eq_nil_iff.2 ⟨hfront, faultsOf_map_moveDown hother last⟩
  · rw [hmore, tokensOf, List.filterMap_append]
    exact congrArg (tokensOf front ++ ·) (tokensOf_map_moveDown _ last)

end Lox.Lexer
