import Lox.Diagnostic.Basic
import Lox.Syntax.Basic

/-!
# Reading tokens

A parser reads from a list of tokens, hands out numbers for nodes, and reports faults. It
may give up, and then the tokens it has read stay read. Parsers never read past a mark of
the end; behind the last token such a mark is assumed, on line zero.

Repetition reads no more items than there are tokens left, which is enough for any item that
takes a token.
-/

namespace Lox

/-- The tokens that are left and the number of the next node. -/
structure Cursor where
  rest : List Token
  fresh : NodeId
  deriving Repr

namespace Cursor

/-- The next token, or the mark of the end if there is none. -/
def peek (c : Cursor) : Token := c.rest.headD (Token.endMark 0)

def atEnd (c : Cursor) : Bool := c.peek.isEnd

end Cursor

/-- What a parser answers: its result unless it gave up, where it stopped, and the faults it
reported. -/
structure Reply (α : Type) where
  result : Option α
  cursor : Cursor
  faults : List Diagnostic := []

def Parser (α : Type) := Cursor → Reply α

namespace Parser

variable {α β : Type}

protected def pure (a : α) : Parser α := fun c => ⟨some a, c, []⟩

/-- Go on with `f` unless `p` gives up. -/
protected def bind (p : Parser α) (f : α → Parser β) : Parser β := fun c =>
  match p c with
  | ⟨some a, c', faults⟩ =>
    let reply := f a c'
    { reply with faults := faults ++ reply.faults }
  | ⟨none, c', faults⟩ => ⟨none, c', faults⟩

instance : Monad Parser where
  pure := Parser.pure
  bind := Parser.bind

@[simp] theorem pure_apply (a : α) (c : Cursor) : (pure a : Parser α) c = ⟨some a, c, []⟩ := rfl

theorem bind_apply (p : Parser α) (f : α → Parser β) (c : Cursor) :
    (p >>= f) c =
      match p c with
      | ⟨some a, c', faults⟩ => { f a c' with faults := faults ++ (f a c').faults }
      | ⟨none, c', faults⟩ => ⟨none, c', faults⟩ := rfl

def look : Parser Token := fun c => ⟨some c.peek, c, []⟩

def atEnd : Parser Bool := fun c => ⟨some c.atEnd, c, []⟩

def check (s : Symbol) : Parser Bool := fun c => ⟨some (c.peek.is s), c, []⟩

def freshId : Parser NodeId := fun c => ⟨some c.fresh, { c with fresh := c.fresh + 1 }, []⟩

def report (t : Token) (fault : SyntaxFault) : Parser Unit := fun c =>
  ⟨some (), c, [.syntactic t.site fault]⟩

def giveUp : Parser α := fun c => ⟨none, c, []⟩

def reject (fault : SyntaxFault) : Parser α := fun c =>
  ⟨none, c, [.syntactic c.peek.site fault]⟩

/-- Read the next token if it passes a test. -/
def acceptIf (test : Token → Bool) : Parser (Option Token) := fun c =>
  match c.rest with
  | t :: rest => if test t then ⟨some (some t), { c with rest := rest }, []⟩ else ⟨some none, c, []⟩
  | [] => ⟨some none, c, []⟩

def accept (s : Symbol) : Parser (Option Token) := acceptIf fun t => t.is s

def acceptAny (ss : List Symbol) : Parser (Option Token) := acceptIf fun t => ss.any t.is

/-- Read the given symbol. If the next token is another one, `what` is missing there. -/
def expect (s : Symbol) (what : String) : Parser Token := do
  match ← accept s with
  | some t => pure t
  | none => reject (.expected what)

/-- Read items until there is none, at most as many as there are tokens in the second
argument. The item parser is given the number of items before it, counted from the third
argument. -/
def manyUpTo (item : Nat → Parser (Option α)) : List Token → Nat → Parser (List α)
  | [], _ => pure []
  | _ :: budget, index => do
    match ← item index with
    | none => pure []
    | some a =>
      let others ← manyUpTo item budget (index + 1)
      pure (a :: others)

/-- Read items until there is none. -/
def many (item : Nat → Parser (Option α)) : Parser (List α) := fun c => manyUpTo item c.rest 0 c

/-- Read items with commas between them, up to a closing parenthesis, which stays unread.
The item parser is given the number of items before it. -/
def commaList (item : Nat → Parser α) : Parser (List α) := do
  if ← check .rightParen then
    pure []
  else
    let first ← item 0
    let others ← many fun index => do
      match ← accept .comma with
      | none => pure none
      | some _ => some <$> item (index + 1)
    pure (first :: others)

/-- The keywords that statements and declarations start with. -/
def statementKeywords : List Symbol :=
  [.kwClass, .kwFun, .kwVar, .kwFor, .kwIf, .kwWhile, .kwPrint, .kwReturn]

/-- Drop tokens behind the token `previous` up to where a statement seems to start: behind a
semicolon, or at a keyword that starts one. -/
def dropToBoundary (previous : Token) : List Token → List Token
  | [] => []
  | t :: rest =>
    if t.isEnd || previous.is .semicolon || statementKeywords.any t.is then t :: rest
    else dropToBoundary t rest

/-- Drop the token that caused a fault, and those behind it up to where a statement seems to
start. A mark of the end is never dropped. -/
def synchronize : List Token → List Token
  | [] => []
  | t :: rest => if t.isEnd then t :: rest else dropToBoundary t rest

/-- Read with `p`; if it gives up, go on where a statement seems to start. -/
def recover (p : Parser α) : Parser (Option α) := fun c =>
  match p c with
  | ⟨some a, c', faults⟩ => ⟨some (some a), c', faults⟩
  | ⟨none, c', faults⟩ => ⟨some none, { c' with rest := synchronize c'.rest }, faults⟩

end Parser
end Lox
