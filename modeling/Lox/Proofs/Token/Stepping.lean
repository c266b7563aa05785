import Lox.Proofs.Token.Cursor
import Lox.Proofs.Token.LineEnds

/-!
# A step of scanning cuts off a piece

A step that starts between two characters ends between two characters, behind the first piece of
what is left of the source, and on the line where this piece ends. A character from 128 on starts
nothing, and neither does its first byte. Any other character is one byte, and what it starts goes
on with whole characters.
-/

namespace Lox.Lexer

open Utf8

/-! ## Characters from 128 on -/

section

variable {c : Char}

theorem ne_of_le (h : 128 ≤ c.toNat) {a : Char} (ha : a.toNat < 128) : c ≠ a := by
  rintro rfl
  omega

theorem not_le_of_le (h : 128 ≤ c.toNat) {a : Char} (ha : a.toNat < 128) : ¬ c.val ≤ a.val := by
  intro hle
  have hnat : c.toNat ≤ a.toNat := UInt32.le_iff_toNat_le.1 hle
  omega

theorem isDigit_of_le (h : 128 ≤ c.toNat) : c.isDigit = false := by
  have hnine := not_le_of_le h (show '9'.toNat < 128 by decide)
  simp only [Char.isDigit, decide_eq_false hnine, Bool.and_false]

theorem isAlpha_of_le (h : 128 ≤ c.toNat) : c.isAlpha = false := by
  have hupper : c.isUpper = false :=
    decide_eq_false fun hc => not_le_of_le h (show 'Z'.toNat < 128 by decide) hc.2
  have hlower : c.isLower = false := Bool.and_eq_false_iff.2
    (.inr (decide_eq_false (not_le_of_le h (show 'z'.toNat < 128 by decide))))
  exact Bool.or_eq_false_iff.2 ⟨hupper, hlower⟩

theorem startsName_of_le (h : 128 ≤ c.toNat) : startsName c = false := by
  rw [startsName, isAlpha_of_le h, Bool.false_or, beq_eq_false_iff_ne]
  exact ne_of_le h (by decide)

theorem continuesName_of_le (h : 128 ≤ c.toNat) : continuesName c = false := by
  rw [continuesName, Char.isAlphanum, isAlpha_of_le h, isDigit_of_le h, Bool.false_or,
    Bool.false_or, beq_eq_false_iff_ne]
  exact ne_of_le h (by decide)

theorem isBlank_of_le (h : 128 ≤ c.toNat) : isBlank c = false := by
  simp only [isBlank, Bool.or_eq_false_iff, beq_eq_false_iff_ne]
  refine ⟨⟨⟨?_, ?_⟩, ?_⟩, ?_⟩ <;> exact ne_of_le h (by decide)

theorem punctuator?_of_le (h : 128 ≤ c.toNat) : punctuator? c = none := by
  unfold punctuator?
  split
  case h_12 => rfl
  all_goals exact absurd h (by decide)

theorem operator?_of_le (h : 128 ≤ c.toNat) : operator? c = none := by
  unfold operator?
  split
  case h_6 => rfl
  all_goals exact absurd h (by decide)

/-- A character from 128 on starts nothing. -/
theorem firstPiece_of_le (h : 128 ≤ c.toNat) (rest : List Char) :
    firstPiece c rest = ⟨[c], .stray c⟩ := by
  simp only [firstPiece, punctuator?_of_le h, operator?_of_le h, isBlank_of_le h,
    ne_of_le h (show '/'.toNat < 128 by decide), ne_of_le h (show '"'.toNat < 128 by decide),
    isDigit_of_le h, startsName_of_le h, Bool.false_eq_true, if_false]

end

/-! ## Operators and numbers -/

theorem operator?_spec {c : Char} {op : Operator} (h : operator? c = some op) :
    c ≠ '\n' ∧ op.second.toNat < 128 := by
  unfold operator? at h
  split at h
  case h_6 => cases h
  all_goals
    cases h
    decide

theorem numberText_cons {c : Char} (hc : c.isDigit = true) (rest : List Char) :
    numberText (c :: rest) =
      c :: (rest.takeWhile Char.isDigit ++ fraction (rest.dropWhile Char.isDigit)) := by
  rw [numberText, List.takeWhile_cons_of_pos hc, List.dropWhile_cons_of_pos hc, List.cons_append]

theorem not_mem_numberText (cs : List Char) : '\n' ∉ numberText cs := by
  have hdigits : ∀ ds : List Char, '\n' ∉ ds.takeWhile Char.isDigit := not_mem_takeWhile rfl
  have hfraction : ∀ ds, '\n' ∉ fraction ds := by
    intro ds
    unfold fraction
    split
    · split
      · exact List.not_mem_cons_of_ne_of_not_mem (by decide) (hdigits _)
      · exact List.not_mem_nil
    · exact List.not_mem_nil
  exact fun hmem => (List.mem_append.1 hmem).elim (hdigits cs) (hfraction _)

namespace Cursor

/-! ## What a byte starts -/

/-- The cursor behind a piece, from the cursor in front of it or inside it. -/
def past (s : Cursor) (p : Piece) : Cursor :=
  ⟨s.start, s.start + (encode p.text).length, s.line + p.newlines⟩

/-- A step has taken the byte of the character `c`, which is before 128. The characters `before` are
in front of it, and `rest` is behind it. -/
structure Begun (source : String) (before : List Char) (c : Char) (rest : List Char)
    (s : Cursor) : Prop where
  source : source = String.ofList (before ++ c :: rest)
  lt : c.toNat < 128
  start : s.start = (encode before).length
  curr : s.curr = s.start + 1

variable {source : String} {before rest : List Char} {c : Char} {s : Cursor}

theorem length_encode_cons_of_lt (h : c.toNat < 128) (cs : List Char) :
    (encode (c :: cs)).length = (encode cs).length + 1 := by
  rw [← length_view, view_cons_of_lt h, List.length_cons, length_view]

/-- A point with a digit behind it is recognized by two bytes. -/
theorem isFraction_view_iff (d : List Char) :
    ((view d).headD '\x00' = '.' ∧ ((view d).tail.headD '\x00').isDigit = true) ↔
      ∃ y r, d = '.' :: y :: r ∧ y.isDigit = true := by
  have hpoint : (view d).headD '\x00' = '.' ↔ d.headD '\x00' = '.' := by
    have hhead := apply_headD_view (q := (· == '.'))
      (fun c hc => beq_eq_false_iff_ne.2 (ne_of_le hc (by decide))) d '\x00'
    rw [← beq_iff_eq, hhead, beq_iff_eq]
  rw [hpoint]
  constructor
  · rintro ⟨hd, hdigit⟩
    cases d with
    | nil => cases hd
    | cons x r =>
      obtain rfl : x = '.' := hd
      rw [view_cons_of_lt (by decide), List.tail_cons,
        apply_headD_view (fun _ => isDigit_of_le)] at hdigit
      cases r with
      | nil => cases hdigit
      | cons y r => exact ⟨y, r, rfl, hdigit⟩
  · rintro ⟨y, r, rfl, hy⟩
    rw [view_cons_of_lt (by decide), List.tail_cons, apply_headD_view (fun _ => isDigit_of_le)]
    exact ⟨rfl, hy⟩

theorem Faces.advanceFraction {d : List Char} (h : Faces source s.curr (view d))
    (hrounds : (view d).length < rounds source) :
    s.advanceFraction source = some { s with curr := s.curr + (encode (fraction d)).length } := by
  rw [Cursor.advanceFraction, h.peek, h.peekNext]
  simp only [Option.bind_eq_bind, Option.bind_some]
  by_cases hd : ∃ y r, d = '.' :: y :: r ∧ y.isDigit = true
  · rw [if_pos ((isFraction_view_iff d).2 hd)]
    obtain ⟨y, r, rfl, hy⟩ := hd
    rw [view_cons_of_lt (by decide)] at h hrounds
    have hrest : Faces source (s.curr + 1) (view (y :: r)) := h.move (n := 1) (by simp)
    rw [h.advance, Option.bind_some]
    simp only
    rw [hrest.advanceWhile rfl (Nat.lt_of_succ_lt hrounds),
      takeWhile_view (fun _ => isDigit_of_le), length_view, fraction, if_pos hy,
      length_encode_cons_of_lt (by decide)]
    simp [Nat.add_assoc, Nat.add_comm 1]
  · have hnone : fraction d = [] := by
      unfold fraction
      split
      · exact if_neg fun hy => hd ⟨_, _, rfl, hy⟩
      · rfl
    rw [if_neg (mt (isFraction_view_iff d).1 hd), hnone]
    rfl

namespace Begun

/-- What the cursor faces behind the front of what is left of the source. -/
theorem faces_behind (h : Begun source before c rest s) {text behind : List Char}
    (hsplit : text ++ behind = c :: rest) :
    Faces source (s.start + (encode text).length) (view behind) := by
  have hfaces := faces_append (before ++ text) behind
  rwa [List.append_assoc, hsplit, ← h.source, encode_append, List.length_append,
    ← h.start] at hfaces

theorem faces (h : Begun source before c rest s) : Faces source s.curr (view rest) := by
  have hfaces := h.faces_behind (show [c] ++ rest = c :: rest from rfl)
  rwa [length_encode_cons_of_lt h.lt, encode_nil, List.length_nil, Nat.zero_add, ← h.curr] at hfaces

theorem length_view_lt_rounds (h : Begun source before c rest s) :
    (view rest).length < rounds source := by
  rw [rounds, h.faces.size_eq]
  omega

/-- The front of what is left of the source is between two boundaries. -/
theorem slice? (h : Begun source before c rest s) {text : List Char} (htext : text <+: c :: rest) :
    slice? source s.start (s.start + (encode text).length) = some (String.ofList text) := by
  obtain ⟨behind, hbehind⟩ := htext
  rw [h.source, ← hbehind, h.start]
  exact slice?_append before text behind

theorem curr_eq (h : Begun source before c rest s) (cs : List Char) :
    s.curr + (view cs).length = s.start + (encode (c :: cs)).length := by
  rw [length_encode_cons_of_lt h.lt, h.curr, length_view]
  omega

theorem advanceWhile (h : Begun source before c rest s) {q : Char → Bool}
    (hq : ∀ c : Char, 128 ≤ c.toNat → q c = false) (hzero : q '\x00' = false) :
    Cursor.advanceWhile source q (rounds source) s =
      some { s with curr := s.start + (encode (c :: rest.takeWhile q)).length } := by
  rw [h.faces.advanceWhile hzero h.length_view_lt_rounds, takeWhile_view hq, h.curr_eq]

theorem scanName (h : Begun source before c rest s) (hc : startsName c = true) :
    let text := c :: rest.takeWhile continuesName
    let p : Piece := ⟨text, .lexeme (.symbol (symbolOfName (String.ofList text)))⟩
    s.scanName source = some (p.cls, s.past p) := by
  intro text p
  have htext : text <+: c :: rest := List.cons_prefix_cons.2 ⟨rfl, List.takeWhile_prefix _⟩
  have hlines : '\n' ∉ text := by
    intro hmem
    rcases List.mem_cons.1 hmem with rfl | hmem
    · cases hc
    · exact not_mem_takeWhile rfl _ hmem
  rw [Cursor.scanName, h.advanceWhile (fun _ => continuesName_of_le) rfl]
  simp only [Option.bind_eq_bind, Option.bind_some]
  rw [h.slice? htext]
  simp [past, Piece.newlines, List.count_eq_zero_of_not_mem hlines, p, text]

theorem scanNumber (h : Begun source before c rest s) (hc : c.isDigit = true) :
    let text := numberText (c :: rest)
    let p : Piece := ⟨text, .lexeme (.number (numberValue text))⟩
    s.scanNumber source = some (p.cls, s.past p) := by
  intro text p
  have hsplit : (c :: rest.takeWhile Char.isDigit) ++ rest.dropWhile Char.isDigit = c :: rest := by
    rw [List.cons_append, List.takeWhile_append_dropWhile]
  have hbehind := h.faces_behind hsplit
  have hlength : s.start + (encode (c :: rest.takeWhile Char.isDigit)).length +
        (encode (fraction (rest.dropWhile Char.isDigit))).length =
      s.start + (encode text).length := by
    simp only [text, numberText_cons hc]
    rw [← List.cons_append, encode_append, List.length_append, Nat.add_assoc]
  have hrounds : (view (rest.dropWhile Char.isDigit)).length < rounds source := by
    rw [rounds, hbehind.size_eq]
    omega
  rw [Cursor.scanNumber, h.advanceWhile (fun _ => isDigit_of_le) rfl]
  simp only [Option.bind_eq_bind, Option.bind_some]
  rw [hbehind.advanceFraction hrounds]
  simp only [Option.bind_some]
  rw [hlength, h.slice? (prefix_numberText _)]
  simp [past, Piece.newlines, List.count_eq_zero_of_not_mem (not_mem_numberText _), p, text]

theorem scanOperator (h : Begun source before c rest s) {op : Operator}
    (hop : operator? c = some op) :
    s.scanOperator source op = some ((operatorPiece c op rest).cls,
      s.past (operatorPiece c op rest)) := by
  obtain ⟨hc, hlt⟩ := operator?_spec hop
  have hsecond := operator?_second_ne_lineEnd hop
  rw [Cursor.scanOperator, h.faces.accept, operatorPiece]
  by_cases hhead : rest.head? = some op.second
  · rw [if_pos ((head?_view_eq_iff hlt rest).2 hhead), if_pos hhead]
    simp [past, Piece.newlines, h.curr, length_encode_cons_of_lt h.lt,
      length_encode_cons_of_lt hlt, hc, hsecond, Nat.add_assoc]
  · rw [if_neg (mt (head?_view_eq_iff hlt rest).1 hhead), if_neg hhead]
    have hcurr : s = ⟨s.start, s.start + 1, s.line⟩ := by rw [← h.curr]
    rw [hcurr]
    simp [past, Piece.newlines, length_encode_cons_of_lt h.lt, hc]

theorem scanSlash (h : Begun source before '/' rest s) :
    s.scanSlash source = some ((slashPiece rest).cls, s.past (slashPiece rest)) := by
  have hlt : '/'.toNat < 128 := by decide
  rw [Cursor.scanSlash, h.faces.accept, slashPiece]
  by_cases hhead : rest.head? = some '/'
  · rw [if_pos ((head?_view_eq_iff hlt rest).2 hhead), if_pos hhead]
    obtain ⟨rest', rfl⟩ := List.head?_eq_some_iff.1 hhead
    have hcurr : s.curr + 1 = s.start + (encode ['/', '/']).length := by
      rw [h.curr, length_encode_cons_of_lt hlt, length_encode_cons_of_lt hlt]
      rfl
    have hbehind := h.faces_behind (show ['/', '/'] ++ rest' = '/' :: '/' :: rest' from rfl)
    rw [← hcurr] at hbehind
    have hlines : '\n' ∉ rest'.takeWhile (· != '\n') := not_mem_takeWhile rfl rest'
    simp only [Option.bind_eq_bind, Option.bind_some, if_true]
    rw [Faces.advanceToLineEnd (s := { s with curr := s.curr + 1 }) hbehind,
      takeWhile_view (fun c hc => bne_iff_ne.2 (ne_of_le hc (by decide)))]
    simp [past, Piece.newlines, List.count_eq_zero_of_not_mem hlines, length_view,
      length_encode_cons_of_lt hlt, h.curr, Nat.add_assoc, Nat.add_comm 2]
  · rw [if_neg (mt (head?_view_eq_iff hlt rest).1 hhead), if_neg hhead]
    have hcurr : s = ⟨s.start, s.start + 1, s.line⟩ := by rw [← h.curr]
    rw [hcurr]
    simp [past, Piece.newlines, length_encode_cons_of_lt hlt]

/-- The cursor goes over the bytes of the piece and counts its line ends. -/
theorem scanString (h : Begun source before '"' rest s) :
    s.scanString source = some ((stringPiece rest).cls, s.past (stringPiece rest)) := by
  have hlt : '"'.toNat < 128 := by decide
  have hflat : ∀ c : Char, 128 ≤ c.toNat → (c != '"') = true := fun c hc =>
    bne_iff_ne.2 (ne_of_le hc hlt)
  rw [Cursor.scanString, h.faces.advanceToQuote h.length_view_lt_rounds, takeWhile_view hflat,
    h.curr_eq, count_view (by decide)]
  simp only [Option.bind_eq_bind, Option.bind_some]
  rcases stringPiece_cases rest with ⟨hbody, heq⟩ | ⟨behind, hrest, heq⟩
  · rw [heq, hbody]
    have hend := h.faces_behind (List.append_nil ('"' :: rest))
    rw [Faces.isAtEnd hend]
    simp [past, Piece.newlines]
  · rw [heq]
    generalize rest.takeWhile (· != '"') = body at hrest ⊢
    have hquote : Faces source (s.start + (encode ('"' :: body)).length) ('"' :: view behind) := by
      have hbehind := h.faces_behind (show ('"' :: body) ++ '"' :: behind = '"' :: rest by
        rw [List.cons_append, hrest])
      rwa [view_cons_of_lt hlt] at hbehind
    have hslice := slice?_append (before ++ ['"']) body ('"' :: behind)
    rw [List.append_assoc, hrest, List.singleton_append, ← h.source, encode_append,
      List.length_append, ← h.start, length_encode_cons_of_lt hlt, encode_nil, List.length_nil,
      Nat.zero_add, Nat.add_assoc, Nat.add_comm 1, ← length_encode_cons_of_lt hlt] at hslice
    rw [Faces.isAtEnd hquote, List.isEmpty_cons, if_neg Bool.false_ne_true, Faces.advance hquote]
    simp only [Option.bind_some, Nat.add_sub_cancel, hslice]
    simp [past, Piece.newlines, length_encode_cons_of_lt hlt, encode_append, Nat.add_assoc]

end Begun

theorem scanStray_eq (hsource : source = String.ofList (before ++ c :: rest))
    (hstart : s.start = (encode before).length) (hc : c ≠ '\n') :
    s.scanStray source = some (.stray c, s.past ⟨[c], .stray c⟩) := by
  have hsize : size source = s.start + (encode (c :: rest)).length := by
    rw [size_eq_length_view, hsource, String.toList_ofList, view_append, List.length_append,
      length_view, length_view, hstart]
  have hslice := slice?_append before (c :: rest) []
  rw [List.append_nil, ← hsource, ← hstart, ← hsize] at hslice
  rw [Cursor.scanStray, hslice]
  simp [past, Piece.newlines, hc, encode_cons]

/-- A byte starts the piece that its character starts. -/
theorem Begun.scanFrom (h : Begun source before c rest s) :
    s.scanFrom source c = some ((firstPiece c rest).cls, s.past (firstPiece c rest)) := by
  have hcurr : s = ⟨s.start, s.start + 1, s.line⟩ := by rw [← h.curr]
  rw [Cursor.scanFrom, firstPiece]
  cases hsymbol : punctuator? c with
  | some symbol =>
    have hc : c ≠ '\n' := by
      rintro rfl
      cases hsymbol
    rw [hcurr]
    simp [past, Piece.newlines, length_encode_cons_of_lt h.lt, hc]
  | none =>
    cases hop : operator? c with
    | some op => exact h.scanOperator hop
    | none =>
      simp only
      by_cases hblank : isBlank c = true
      · simp only [if_pos hblank]
        rw [hcurr]
        by_cases hc : c = '\n'
        · subst hc
          simp [past, Piece.newlines, length_encode_cons_of_lt h.lt]
        · simp [past, Piece.newlines, length_encode_cons_of_lt h.lt, hc]
      simp only [if_neg hblank]
      by_cases hslash : c = '/'
      · subst hslash
        exact h.scanSlash
      simp only [if_neg hslash]
      by_cases hquote : c = '"'
      · subst hquote
        exact h.scanString
      simp only [if_neg hquote]
      by_cases hdigit : c.isDigit = true
      · simp only [if_pos hdigit]
        exact h.scanNumber hdigit
      simp only [if_neg hdigit]
      by_cases hname : startsName c = true
      · simp only [if_pos hname]
        exact h.scanName hname
      simp only [if_neg hname]
      have hc : c ≠ '\n' := by
        rintro rfl
        exact hblank rfl
      exact scanStray_eq h.source h.start hc

/-- A byte from 128 on starts nothing. -/
theorem scanFrom_of_le {b : Char} (h : 128 ≤ b.toNat) :
    s.scanFrom source b = s.scanStray source := by
  simp only [scanFrom, punctuator?_of_le h, operator?_of_le h, isBlank_of_le h,
    ne_of_le h (show '/'.toNat < 128 by decide), ne_of_le h (show '"'.toNat < 128 by decide),
    isDigit_of_le h, startsName_of_le h, Bool.false_eq_true, if_false]

/-- A step cuts off the first piece. -/
theorem scanPiece_eq (hsource : source = String.ofList (before ++ c :: rest))
    (hcurr : s.curr = (encode before).length) :
    s.scanPiece source = some ((firstPiece c rest).cls,
      { s with start := s.curr }.past (firstPiece c rest)) := by
  have hfaces := faces_append before (c :: rest)
  rw [← hsource, ← hcurr] at hfaces
  by_cases hc : c.toNat < 128
  · rw [view_cons_of_lt hc] at hfaces
    rw [Cursor.scanPiece, Faces.advance (s := { s with start := s.curr }) hfaces]
    exact Begun.scanFrom ⟨hsource, hc, hcurr, rfl⟩
  · have hle := Nat.not_lt.1 hc
    cases hview : view [c] with
    | nil => exact absurd hview (view_singleton_ne_nil c)
    | cons b bs =>
      have hb := le_of_mem_view_singleton hle (hview ▸ List.mem_cons_self : b ∈ view [c])
      rw [view_cons, hview, List.cons_append] at hfaces
      rw [Cursor.scanPiece, Faces.advance (s := { s with start := s.curr }) hfaces]
      simp only [Option.bind_eq_bind, Option.bind_some]
      rw [scanFrom_of_le hb, firstPiece_of_le hle]
      exact scanStray_eq hsource hcurr (ne_of_le hle (by decide))

end Cursor

end Lox.Lexer
