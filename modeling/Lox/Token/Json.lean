import Lox.Number.Text
import Lox.Token.Basic

/-!
# Tokens as JSON text

The text of a token list in JSON, spread over lines with an indentation of two blanks. A
token is an object of its kind, its source text and its line; a kind with a value is an
object that has the name of the kind as its one key.
-/

namespace Lox

namespace Json

/-- A JSON value. Numbers are kept as they are written. -/
inductive Document where
  | number (text : String)
  | string (text : String)
  | array (items : List Document)
  | object (fields : List (String × Document))

def hexDigit (n : Nat) : Char := Nat.digitChar n

/-- How a character stands inside quotes: quotes and backslashes are escaped, control
characters by a letter if they have one and by number if not, and nothing else is. -/
def escapeChar (c : Char) : List Char :=
  match c with
  | '"' => ['\\', '"']
  | '\\' => ['\\', '\\']
  | '\x08' => ['\\', 'b']
  | '\x0c' => ['\\', 'f']
  | '\n' => ['\\', 'n']
  | '\r' => ['\\', 'r']
  | '\t' => ['\\', 't']
  | c =>
    if c.toNat < 0x20 then
      ['\\', 'u', '0', '0', hexDigit (c.toNat / 16), hexDigit (c.toNat % 16)]
    else [c]

def quote (text : String) : String :=
  "\"" ++ String.ofList (text.toList.flatMap escapeChar) ++ "\""

/-- The start of a line at the given depth. -/
def newline (depth : Nat) : String := "\n" ++ String.ofList (List.replicate (2 * depth) ' ')

/-- Parts on lines of their own, one level deeper than `depth`, between two brackets. -/
def spread (depth : Nat) (opening closing : String) (parts : List String) : String :=
  if parts.isEmpty then opening ++ closing
  else
    opening ++ newline (depth + 1) ++ String.intercalate ("," ++ newline (depth + 1)) parts ++
      newline depth ++ closing

mutual

/-- The text of a document that starts at the given depth. -/
def Document.render (depth : Nat) : Document → String
  | .number text => text
  | .string text => quote text
  | .array items => spread depth "[" "]" (renderItems (depth + 1) items)
  | .object fields => spread depth "\x7b" "\x7d" (renderFields (depth + 1) fields)

def renderItems (depth : Nat) : List Document → List String
  | [] => []
  | item :: items => item.render depth :: renderItems depth items

def renderFields (depth : Nat) : List (String × Document) → List String
  | [] => []
  | (key, value) :: fields =>
    (quote key ++ ": " ++ value.render depth) :: renderFields depth fields

end

/-- The decimal exponents, of the leading digit, that are written without an exponent. -/
def positionalExponents (e : Int) : Bool := -5 ≤ e && e ≤ 15

/-- A decimal whose leading digit stands for `10 ^ e`: positional for moderate `e`, whole
numbers then ending in `.0`, and otherwise with a signed exponent. -/
def decimalText (d : Decimal) : String :=
  let e := d.point - 1
  if positionalExponents e then
    if (d.digits.length : Int) ≤ d.point then d.positional ++ ".0" else d.positional
  else
    let lead := String.ofList (d.digits.take 1)
    let tail := String.ofList (d.digits.drop 1)
    let mantissa := if tail.isEmpty then lead else lead ++ "." ++ tail
    mantissa ++ "e" ++ (if 0 ≤ e then "+" else "-") ++ toString e.natAbs

/-- A number: the shortest digits that read back, an even last digit deciding ties. There
is no text for an infinity or for what is not a number, and null stands for them. -/
def numberText (x : Float) : String :=
  match Number.shape x with
  | .finite negative magnitude =>
    Number.signText negative ++
      if magnitude.mantissa = 0 then "0.0" else decimalText (magnitude.shortest .toEven)
  | _ => "null"

end Json

namespace Token

/-- A kind in JSON. -/
def Kind.json : Kind → Json.Document
  | .symbol s => .string s.name
  | .string text => .object [("STRING", .string text)]
  | .number value => .object [("NUMBER", .number (Json.numberText value.toFloat))]

/-- A token in JSON. -/
def json (t : Token) : Json.Document :=
  .object [("token_type", t.kind.json), ("lexeme", .string t.lexeme),
    ("line", .number (toString t.line))]

def listJson (tokens : List Token) : String := (Json.Document.array (tokens.map json)).render 0

end Token
end Lox
