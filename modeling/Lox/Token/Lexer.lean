import Lox.Diagnostic.Basic

/-!
# From source text to tokens

A source is cut into pieces: blanks, comments, lexemes, and two kinds of pieces that are no
lexeme, a stray character and a string that is never closed. Each piece is a nonempty front
of what is left of the source, and the pieces together are the source. The items of a
source are then its lexemes and faults in order, each on the line where its piece ends, and
the mark of the end.
-/

namespace Lox.Lexer

/-- What a piece of a source is. -/
inductive Piece.Class where
  | blank
  | comment
  | lexeme (kind : Token.Kind)
  | stray (c : Char)
  | unclosedString
  deriving Repr

/-- A stretch of source text and what it is. -/
structure Piece where
  text : List Char
  cls : Piece.Class
  deriving Repr

def isBlank (c : Char) : Bool := c == ' ' || c == '\r' || c == '\t' || c == '\n'

def startsName (c : Char) : Bool := c.isAlpha || c == '_'

def continuesName (c : Char) : Bool := c.isAlphanum || c == '_'

/-- The symbols that are one character long and never start a longer lexeme. -/
def punctuator? : Char → Option Symbol
  | '(' => some .leftParen
  | ')' => some .rightParen
  | '\x7b' => some .leftBrace
  | '\x7d' => some .rightBrace
  | ',' => some .comma
  | '.' => some .dot
  | '-' => some .minus
  | '+' => some .plus
  | ';' => some .semicolon
  | '*' => some .star
  | ':' => some .colon
  | _ => none

/-- A character that is a symbol by itself and another one with a second character. -/
structure Operator where
  second : Char
  long : Symbol
  short : Symbol

/-- The symbols that may be one or two characters long, by their first character. -/
def operator? : Char → Option Operator
  | '!' => some ⟨'=', .bangEqual, .bang⟩
  | '=' => some ⟨'=', .equalEqual, .equal⟩
  | '<' => some ⟨'=', .lessEqual, .less⟩
  | '>' => some ⟨'=', .greaterEqual, .greater⟩
  | '?' => some ⟨'?', .questionQuestion, .question⟩
  | _ => none

/-- The names that are not identifiers. -/
def keywords : List (String × Symbol) :=
  [("and", .kwAnd), ("class", .kwClass), ("else", .kwElse), ("false", .kwFalse),
    ("fun", .kwFun), ("for", .kwFor), ("if", .kwIf), ("nil", .kwNil), ("or", .kwOr),
    ("print", .kwPrint), ("return", .kwReturn), ("super", .kwSuper), ("static", .kwStatic),
    ("this", .kwThis), ("true", .kwTrue), ("var", .kwVar), ("while", .kwWhile)]

/-- The symbol that a name is. -/
def symbolOfName (name : String) : Symbol := (keywords.lookup name).getD .identifier

/-- The fraction of a number: a point and the digits after it, of which there is at least
one. Anything else is no fraction. -/
def fraction : List Char → List Char
  | '.' :: d :: rest => if d.isDigit then '.' :: (d :: rest).takeWhile Char.isDigit else []
  | _ => []

/-- The number at the front of a source that starts with a digit. -/
def numberText (source : List Char) : List Char :=
  source.takeWhile Char.isDigit ++ fraction (source.dropWhile Char.isDigit)

/-- The whole number that decimal digits spell. -/
def digitsValue (digits : List Char) : Nat :=
  digits.foldl (fun n d => 10 * n + (d.toNat - '0'.toNat)) 0

/-- The double nearest to the number that digits with an optional point spell. -/
def numberValue (text : List Char) : Double :=
  let digits := text.filter Char.isDigit
  let places := (text.dropWhile Char.isDigit).length - 1
  .ofFloat (Float.ofScientific (digitsValue digits) true places)

/-- The piece that a quote starts: the text up to and with the next quote. -/
def stringPiece (rest : List Char) : Piece :=
  let body := rest.takeWhile (· != '"')
  if body.length < rest.length then
    ⟨'"' :: (body ++ ['"']), .lexeme (.string (String.ofList body))⟩
  else
    ⟨'"' :: rest, .unclosedString⟩

/-- The piece that a slash starts: the rest of the line after two of them. -/
def slashPiece (rest : List Char) : Piece :=
  if rest.head? = some '/' then ⟨'/' :: rest.takeWhile (· != '\n'), .comment⟩
  else ⟨['/'], .lexeme (.symbol .slash)⟩

/-- The piece that the first character of an operator starts. -/
def operatorPiece (c : Char) (op : Operator) (rest : List Char) : Piece :=
  if rest.head? = some op.second then ⟨[c, op.second], .lexeme (.symbol op.long)⟩
  else ⟨[c], .lexeme (.symbol op.short)⟩

/-- The piece at the front of the source `c :: rest`. -/
def firstPiece (c : Char) (rest : List Char) : Piece :=
  match punctuator? c, operator? c with
  | some s, _ => ⟨[c], .lexeme (.symbol s)⟩
  | none, some op => operatorPiece c op rest
  | none, none =>
    if isBlank c then ⟨[c], .blank⟩
    else if c = '/' then slashPiece rest
    else if c = '"' then stringPiece rest
    else if c.isDigit then
      let text := numberText (c :: rest)
      ⟨text, .lexeme (.number (numberValue text))⟩
    else if startsName c then
      let text := c :: rest.takeWhile continuesName
      ⟨text, .lexeme (.symbol (symbolOfName (String.ofList text)))⟩
    else ⟨[c], .stray c⟩

/-- The pieces of a source of which the first `skip` characters belong to a piece that has
been cut already. -/
def piecesAfter : Nat → List Char → List Piece
  | _, [] => []
  | skip + 1, _ :: rest => piecesAfter skip rest
  | 0, c :: rest =>
    let piece := firstPiece c rest
    piece :: piecesAfter (piece.text.length - 1) rest

/-- A source cut into pieces. -/
def pieces (source : List Char) : List Piece := piecesAfter 0 source

abbrev Item := Except Diagnostic Token

def Piece.newlines (p : Piece) : Nat := p.text.count '\n'

/-- What a piece that ends on the given line contributes. Blanks and comments are skipped. -/
def Piece.item? (p : Piece) (line : Nat) : Option Item :=
  match p.cls with
  | .blank | .comment => none
  | .lexeme kind => some (.ok ⟨kind, String.ofList p.text, line⟩)
  | .stray c => some (.error (.lexical line (.unexpectedCharacter c)))
  | .unclosedString => some (.error (.lexical line .unterminatedString))

/-- The items of the pieces of a source that continue on the given line. -/
def itemsFrom (line : Nat) : List Piece → List Item
  | [] => [.ok (Token.endMark line)]
  | p :: ps => (p.item? (line + p.newlines)).toList ++ itemsFrom (line + p.newlines) ps

/-- The items of a source: its tokens and lexical faults in order, and the end mark last. -/
def scan (source : String) : List Item := itemsFrom 1 (pieces source.toList)

def tokensOf (items : List Item) : List Token := items.filterMap Except.toOption

/-- The diagnostics among items. -/
def faultsOf (items : List Item) : List Diagnostic :=
  items.filterMap fun
    | .ok _ => none
    | .error d => some d

def tokens (source : String) : List Token := tokensOf (scan source)

def faults (source : String) : List Diagnostic := faultsOf (scan source)

end Lox.Lexer
