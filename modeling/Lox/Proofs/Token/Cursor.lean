import Lox.Proofs.Text.Bytes
import Lox.Token.Lexer

/-!
# Scanning bytes

The items of a source may be found by going through its bytes from left to right. A cursor knows at
which byte the current lexeme starts, which byte is looked at next, and the line. It looks at single
bytes, and takes parts of the source only between two offsets that it has reached. Each step has a
result only if the byte that it looks at is there, if the part that it takes starts and ends between
characters, and if its loops end after fewer rounds than the source has bytes and one more.
-/

namespace Lox.Lexer

open Utf8

/-- Where scanning has come to: the offset at which the current lexeme starts, the offset of the
byte that is looked at next, and the line. -/
structure Cursor where
  start : Nat
  curr : Nat
  line : Nat
  deriving DecidableEq, Repr

namespace Cursor

section

variable (source : String)

def size : Nat := (bytes source).length

/-- The byte at an offset, as the character with its number. There is none behind the last one. -/
def byteAt? (offset : Nat) : Option Char := (bytes source)[offset]?.map Char.ofUInt8

/-- Loops may take this many rounds. -/
def rounds : Nat := size source + 1

def isAtEnd (s : Cursor) : Bool := size source ≤ s.curr

/-- Take a byte. -/
def advance (s : Cursor) : Option (Char × Cursor) := do
  let b ← byteAt? source s.curr
  some (b, { s with curr := s.curr + 1 })

/-- The next byte, or zero at the end. -/
def peek (s : Cursor) : Option Char :=
  if s.isAtEnd source then some '\x00' else byteAt? source s.curr

/-- The byte behind the next one, or zero if there is none. -/
def peekNext (s : Cursor) : Option Char :=
  if size source ≤ s.curr + 1 then some '\x00' else byteAt? source (s.curr + 1)

/-- Take the next byte if it is the given one. -/
def accept (expected : Char) (s : Cursor) : Option (Bool × Cursor) :=
  if s.isAtEnd source then some (false, s)
  else do
    let b ← s.peek source
    if b = expected then do
      let (_, s) ← s.advance source
      some (true, s)
    else some (false, s)

/-- Take bytes while the next one is as `p` says. -/
def advanceWhile (p : Char → Bool) : Nat → Cursor → Option Cursor
  | 0, _ => none
  | rounds + 1, s => do
    let b ← s.peek source
    if p b then do
      let (_, s) ← s.advance source
      advanceWhile p rounds s
    else some s

/-- Take bytes up to a quote or the end, and count the line ends among them. -/
def advanceToQuote : Nat → Cursor → Option Cursor
  | 0, _ => none
  | rounds + 1, s =>
    if s.isAtEnd source then some s
    else do
      let b ← s.peek source
      if b = '"' then some s
      else do
        let (b, s) ← s.advance source
        advanceToQuote rounds { s with line := if b = '\n' then s.line + 1 else s.line }

/-- Go to the next line end, or to the end. -/
def advanceToLineEnd (s : Cursor) : Option Cursor :=
  if size source < s.curr then none
  else
    match ((bytes source).drop s.curr).findIdx? fun b => Char.ofUInt8 b == '\n' with
    | some n => some { s with curr := s.curr + n }
    | none => some { s with curr := size source }

/-- What a quote starts. -/
def scanString (s : Cursor) : Option (Piece.Class × Cursor) := do
  let s ← advanceToQuote source (rounds source) s
  if s.isAtEnd source then some (.unclosedString, s)
  else do
    let (_, s) ← s.advance source
    let text ← slice? source (s.start + 1) (s.curr - 1)
    some (.lexeme (.string text), s)

/-- The fraction of a number, if there is one. -/
def advanceFraction (s : Cursor) : Option Cursor := do
  let point ← s.peek source
  let digit ← s.peekNext source
  if point = '.' ∧ digit.isDigit then do
    let (_, s) ← s.advance source
    advanceWhile source Char.isDigit (rounds source) s
  else some s

/-- What a digit starts. -/
def scanNumber (s : Cursor) : Option (Piece.Class × Cursor) := do
  let s ← advanceWhile source Char.isDigit (rounds source) s
  let s ← s.advanceFraction source
  let text ← slice? source s.start s.curr
  some (.lexeme (.number (numberValue text.toList)), s)

/-- What a letter starts. -/
def scanName (s : Cursor) : Option (Piece.Class × Cursor) := do
  let s ← advanceWhile source continuesName (rounds source) s
  let text ← slice? source s.start s.curr
  some (.lexeme (.symbol (symbolOfName text)), s)

/-- What a slash starts. -/
def scanSlash (s : Cursor) : Option (Piece.Class × Cursor) := do
  let (comment, s) ← s.accept source '/'
  if comment then do
    let s ← s.advanceToLineEnd source
    some (.comment, s)
  else some (.lexeme (.symbol .slash), s)

/-- What the first character of an operator starts. -/
def scanOperator (op : Operator) (s : Cursor) : Option (Piece.Class × Cursor) := do
  let (long, s) ← s.accept source op.second
  some (.lexeme (.symbol (if long then op.long else op.short)), s)

/-- A character that starts nothing, all bytes of it. -/
def scanStray (s : Cursor) : Option (Piece.Class × Cursor) := do
  let text ← slice? source s.start (size source)
  let c := text.toList.headD '�'
  some (.stray c, { s with curr := s.start + c.utf8Size })

/-- What the byte `b`, which has been taken, starts. -/
def scanFrom (b : Char) (s : Cursor) : Option (Piece.Class × Cursor) :=
  match punctuator? b, operator? b with
  | some symbol, _ => some (.lexeme (.symbol symbol), s)
  | none, some op => s.scanOperator source op
  | none, none =>
    if isBlank b then some (.blank, { s with line := if b = '\n' then s.line + 1 else s.line })
    else if b = '/' then s.scanSlash source
    else if b = '"' then s.scanString source
    else if b.isDigit then s.scanNumber source
    else if startsName b then s.scanName source
    else s.scanStray source

/-- One step, over a piece of the source. -/
def scanPiece (s : Cursor) : Option (Piece.Class × Cursor) := do
  let (b, s) ← { s with start := s.curr }.advance source
  s.scanFrom source b

/-- Steps up to the next item, in no more than the given number. Behind the end there is none. -/
def nextIn : Nat → Cursor → Option (Option Item × Cursor)
  | 0, _ => none
  | rounds + 1, s =>
    if size source < s.curr then some (none, s)
    else if s.curr = size source then
      some (some (.ok (Token.endMark s.line)), { s with curr := s.curr + 1 })
    else do
      let (cls, s) ← s.scanPiece source
      match cls with
      | .blank | .comment => nextIn rounds s
      | .lexeme kind => do
        let text ← slice? source s.start s.curr
        some (some (.ok ⟨kind, text, s.line⟩), s)
      | .stray c => some (some (.error (.lexical s.line (.unexpectedCharacter c))), s)
      | .unclosedString => some (some (.error (.lexical s.line .unterminatedString)), s)

/-- Steps up to the next item. -/
def next (s : Cursor) : Option (Option Item × Cursor) := nextIn source (rounds source) s

end

/-! ## Single bytes and loops -/

/-- The bytes from an offset on, each as the character with its number. -/
def Faces (source : String) (offset : Nat) (bs : List Char) : Prop :=
  offset ≤ size source ∧ (view source.toList).drop offset = bs

variable {source : String} {offset : Nat} {s : Cursor} {b : Char} {bs : List Char}

theorem size_eq_length_view (source : String) : size source = (view source.toList).length := by
  rw [size, bytes_eq_encode, length_view]

theorem faces_append (before rest : List Char) :
    Faces (String.ofList (before ++ rest)) (encode before).length (view rest) := by
  rw [Faces, size_eq_length_view, String.toList_ofList, view_append, ← length_view]
  exact ⟨by simp, List.drop_left⟩

namespace Faces

theorem size_eq (h : Faces source offset bs) : size source = offset + bs.length := by
  have hle := h.1
  rw [size_eq_length_view] at hle ⊢
  rw [← h.2, List.length_drop, Nat.add_sub_cancel' hle]

theorem byteAt?_add (h : Faces source offset bs) (n : Nat) :
    byteAt? source (offset + n) = bs[n]? := by
  rw [byteAt?, bytes_eq_encode, ← List.getElem?_map, ← h.2, List.getElem?_drop, view]

theorem move (h : Faces source offset bs) {n : Nat} (hn : n ≤ bs.length) :
    Faces source (offset + n) (bs.drop n) := by
  refine ⟨?_, ?_⟩
  · rw [h.size_eq]
    exact Nat.add_le_add_left hn offset
  · rw [← h.2, List.drop_drop]

theorem advance (h : Faces source s.curr (b :: bs)) :
    s.advance source = some (b, { s with curr := s.curr + 1 }) := by
  have hb : byteAt? source s.curr = some b := h.byteAt?_add 0
  simp only [Cursor.advance, hb]
  rfl

theorem isAtEnd (h : Faces source s.curr bs) : s.isAtEnd source = bs.isEmpty := by
  rw [Cursor.isAtEnd, h.size_eq]
  cases bs with
  | nil => simp
  | cons b bs => simp

theorem peek (h : Faces source s.curr bs) : s.peek source = some (bs.headD '\x00') := by
  rw [Cursor.peek, h.isAtEnd]
  cases bs with
  | nil => rfl
  | cons b bs => exact h.byteAt?_add 0

theorem peekNext (h : Faces source s.curr bs) :
    s.peekNext source = some (bs.tail.headD '\x00') := by
  have hbyte := h.byteAt?_add 1
  rw [Cursor.peekNext, h.size_eq]
  match bs with
  | [] => simp
  | [_] => simp
  | _ :: _ :: _ => simp [hbyte]

theorem accept (h : Faces source s.curr bs) (expected : Char) :
    s.accept source expected =
      if bs.head? = some expected then some (true, { s with curr := s.curr + 1 })
      else some (false, s) := by
  rw [Cursor.accept, h.isAtEnd]
  cases bs with
  | nil => rfl
  | cons b bs =>
    simp only [List.isEmpty_cons, Bool.false_eq_true, if_false, h.peek, h.advance, List.headD_cons,
      List.head?_cons, Option.some_inj, Option.bind_eq_bind, Option.bind_some]

/-- The zero byte that stands for the end stops the loop. -/
theorem advanceWhile {p : Char → Bool} (hp : p '\x00' = false) {rounds : Nat}
    (h : Faces source s.curr bs) (hrounds : bs.length < rounds) :
    Cursor.advanceWhile source p rounds s =
      some { s with curr := s.curr + (bs.takeWhile p).length } := by
  induction rounds generalizing s bs with
  | zero => exact absurd hrounds (Nat.not_lt_zero _)
  | succ rounds ih =>
    rw [Cursor.advanceWhile, h.peek]
    cases bs with
    | nil => simp [hp]
    | cons b bs =>
      simp only [List.headD_cons, Option.bind_eq_bind, Option.bind_some, List.takeWhile_cons]
      by_cases hb : p b = true
      · have hrest : Faces source (s.curr + 1) bs := h.move (n := 1) (by simp)
        rw [if_pos hb, if_pos hb, h.advance, Option.bind_some]
        simp only
        rw [ih hrest (Nat.lt_of_succ_lt_succ hrounds)]
        simp [Nat.add_assoc, Nat.add_comm 1]
      · rw [if_neg hb, if_neg hb]
        rfl

/-- The cursor stops at a quote or at the end, and counts line ends on the way. -/
theorem advanceToQuote {rounds : Nat} (h : Faces source s.curr bs) (hrounds : bs.length < rounds) :
    Cursor.advanceToQuote source rounds s =
      some { s with
        curr := s.curr + (bs.takeWhile (· != '"')).length
        line := s.line + (bs.takeWhile (· != '"')).count '\n' } := by
  induction rounds generalizing s bs with
  | zero => exact absurd hrounds (Nat.not_lt_zero _)
  | succ rounds ih =>
    rw [Cursor.advanceToQuote, h.isAtEnd, h.peek]
    cases bs with
    | nil => rfl
    | cons b bs =>
      simp only [List.isEmpty_cons, Bool.false_eq_true, if_false, List.headD_cons,
        Option.bind_eq_bind, Option.bind_some, List.takeWhile_cons]
      by_cases hb : b = '"'
      · simp [hb]
      · have hrest : Faces source (s.curr + 1) bs := h.move (n := 1) (by simp)
        have hne : (b != '"') = true := bne_iff_ne.2 hb
        rw [if_neg hb, if_pos hne, h.advance, Option.bind_some]
        simp only
        rw [ih hrest (Nat.lt_of_succ_lt_succ hrounds), List.count_cons]
        by_cases hline : b = '\n'
        · simp [hline, Nat.add_assoc, Nat.add_comm 1]
        · simp [hline, Nat.add_assoc, Nat.add_comm 1]

theorem advanceToLineEnd (h : Faces source s.curr bs) :
    s.advanceToLineEnd source =
      some { s with curr := s.curr + (bs.takeWhile (· != '\n')).length } := by
  have hbytes : ((bytes source).drop s.curr).findIdx? (fun b => Char.ofUInt8 b == '\n') =
      bs.findIdx? (· == '\n') := by
    rw [← h.2, view, ← bytes_eq_encode, ← List.map_drop, List.findIdx?_map]
    rfl
  have hlength : (bs.takeWhile (· != '\n')).length = bs.findIdx (· == '\n') := by
    rw [List.takeWhile_eq_take_findIdx_not, List.length_take]
    simp only [bne, Bool.not_not]
    exact Nat.min_eq_left List.findIdx_le_length
  rw [Cursor.advanceToLineEnd, if_neg (Nat.not_lt.2 h.1), hbytes, hlength]
  cases hfound : bs.findIdx? (· == '\n') with
  | none =>
    rw [List.findIdx?_eq_none_iff_findIdx_eq.1 hfound]
    simp only [h.size_eq]
  | some n =>
    rw [(List.findIdx?_eq_some_iff_findIdx_eq.1 hfound).2]

end Faces

end Cursor

end Lox.Lexer
