import Lox.Number.Text
import Lox.Token.Basic

/-!
# Token listings

A listing shows one token a line: its kind, its source text and its value. A token without
a value shows `null`. Whole numbers below `2 ^ 63` are written as integers followed by
`.0`, so negative zero loses its sign; all other numbers are written as short as possible.
-/

namespace Lox

namespace Number

/-- Magnitudes from here on are no longer written as integers in a listing. -/
def listingLimit : Nat := Nat.pow 2 63

/-- The value of a number token in a listing. -/
def listingText (x : Float) : String :=
  match shape x with
  | .finite negative magnitude =>
    if magnitude.isWhole && magnitude.floor < listingLimit then
      signText (negative && magnitude.floor != 0) ++ toString magnitude.floor ++ ".0"
    else shortestText x
  | _ => shortestText x

end Number

namespace Token

/-- The value of a token in a listing. -/
def Kind.valueText : Kind → String
  | .symbol _ => "null"
  | .string text => text
  | .number value => Number.listingText value.toFloat

/-- The line of a listing that shows the token. -/
def text (t : Token) : String :=
  t.kind.name ++ " " ++ t.lexeme ++ " " ++ t.kind.valueText

end Token
end Lox
