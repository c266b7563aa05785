import Lox.Text.Unprintable

/-!
# Texts for the developer

File names and the names of objects are shown between quotes in messages. Quotes,
backslashes and characters without a form of their own are escaped; everything else stands
for itself. A record is shown by its name and its fields.
-/

namespace Lox.Quoted

def hexText (n : Nat) : List Char := Nat.toDigits 16 n

/-- How a character stands between quotes. -/
def escapeChar (c : Char) : List Char :=
  match c with
  | '"' => ['\\', '"']
  | '\\' => ['\\', '\\']
  | '\n' => ['\\', 'n']
  | '\r' => ['\\', 'r']
  | '\t' => ['\\', 't']
  | '\x00' => ['\\', '0']
  | c =>
    if Unprintable.contains c then ['\\', 'u', '\x7b'] ++ hexText c.toNat ++ ['\x7d'] else [c]

def quote (text : String) : String :=
  "\"" ++ String.ofList (text.toList.flatMap escapeChar) ++ "\""

def boolText (b : Bool) : String := if b then "true" else "false"

/-- A record with a name and fields. -/
def record (name : String) (fields : List (String × String)) : String :=
  name ++ " \x7b " ++ String.intercalate ", " (fields.map fun f => f.1 ++ ": " ++ f.2) ++ " \x7d"

end Lox.Quoted
