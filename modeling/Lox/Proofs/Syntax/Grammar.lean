import Lox.Syntax.Parser.Expression

/-!
# The grammar

The grammar of programs as a table of rules, and the token lists that derive from it. The
rules are those of the language as they are written for its readers; they are ambiguous. An
`else` may belong to several `if`s, and a `??` to several conditionals.
-/

namespace Lox

/-- The names of the rules of the grammar. -/
inductive Nonterminal where
  | program | declaration | classDecl | funDecl | function | varDecl
  | statement | exprStmt | forStmt | ifStmt | printStmt | returnStmt | whileStmt | block
  | parameters
  | expression | assignment | nullCoalesce | ternary
  | logicOr | logicAnd | equality | comparison | term | factor
  | unary | call | arguments | primary
  deriving DecidableEq, Repr

/-- What stands on the right side of a rule. A list is one item or more with commas between
them, and has no more items than its limit. -/
inductive Ebnf where
  | symbol (s : Symbol)
  | number
  | string
  | rule (n : Nonterminal)
  | seq (es : List Ebnf)
  | choice (es : List Ebnf)
  | opt (e : Ebnf)
  | many (e : Ebnf)
  | list (limit : Nat) (e : Ebnf)

namespace Ebnf

/-- Operands with operators between them. -/
def chain (operand : Nonterminal) (operators : List Symbol) : Ebnf :=
  seq [rule operand, many (seq [choice (operators.map symbol), rule operand])]

end Ebnf

open Ebnf in
/-- The grammar. No list of parameters or arguments has more than `maxArity` entries. -/
def rules : Nonterminal → Ebnf
  | .program => seq [many (rule .declaration), symbol .eof]
  | .declaration =>
    choice [rule .classDecl, rule .funDecl, rule .varDecl, rule .statement]
  | .classDecl =>
    seq [symbol .kwClass, symbol .identifier, opt (seq [symbol .less, symbol .identifier]),
      symbol .leftBrace, many (seq [opt (symbol .kwStatic), rule .function]), symbol .rightBrace]
  | .funDecl => seq [symbol .kwFun, rule .function]
  | .function =>
    seq [symbol .identifier, symbol .leftParen, opt (rule .parameters), symbol .rightParen,
      rule .block]
  | .varDecl =>
    seq [symbol .kwVar, symbol .identifier, opt (seq [symbol .equal, rule .expression]),
      symbol .semicolon]
  | .statement =>
    choice [rule .exprStmt, rule .forStmt, rule .ifStmt, rule .printStmt, rule .returnStmt,
      rule .whileStmt, rule .block]
  | .exprStmt => seq [rule .expression, symbol .semicolon]
  | .forStmt =>
    seq [symbol .kwFor, symbol .leftParen,
      choice [rule .varDecl, rule .exprStmt, symbol .semicolon],
      opt (rule .expression), symbol .semicolon, opt (rule .expression), symbol .rightParen,
      rule .statement]
  | .ifStmt =>
    seq [symbol .kwIf, symbol .leftParen, rule .expression, symbol .rightParen, rule .statement,
      opt (seq [symbol .kwElse, rule .statement])]
  | .printStmt => seq [symbol .kwPrint, rule .expression, symbol .semicolon]
  | .returnStmt => seq [symbol .kwReturn, opt (rule .expression), symbol .semicolon]
  | .whileStmt =>
    seq [symbol .kwWhile, symbol .leftParen, rule .expression, symbol .rightParen,
      rule .statement]
  | .block => seq [symbol .leftBrace, many (rule .declaration), symbol .rightBrace]
  | .parameters => list Parser.maxArity (symbol .identifier)
  | .expression => rule .assignment
  | .assignment =>
    choice
      [seq [opt (seq [rule .call, symbol .dot]), symbol .identifier, symbol .equal,
        rule .assignment], rule .nullCoalesce]
  | .nullCoalesce => seq [rule .ternary, opt (seq [symbol .questionQuestion, rule .expression])]
  | .ternary =>
    seq [rule .logicOr,
      opt (seq [symbol .question, rule .expression, symbol .colon, rule .expression])]
  | .logicOr => chain .logicAnd [.kwOr]
  | .logicAnd => chain .equality [.kwAnd]
  | .equality => chain .comparison [.bangEqual, .equalEqual]
  | .comparison => chain .term [.greater, .greaterEqual, .less, .lessEqual]
  | .term => chain .factor [.minus, .plus]
  | .factor => chain .unary [.slash, .star]
  | .unary =>
    choice [seq [choice [symbol .bang, symbol .minus], rule .unary], rule .call]
  | .call =>
    seq [rule .primary,
      many (choice
        [seq [symbol .leftParen, opt (rule .arguments), symbol .rightParen],
          seq [symbol .dot, symbol .identifier]])]
  | .arguments => list Parser.maxArity (rule .expression)
  | .primary =>
    choice
      [number, string, symbol .kwTrue, symbol .kwFalse, symbol .kwNil, symbol .kwThis,
        symbol .identifier, seq [symbol .leftParen, rule .expression, symbol .rightParen],
        seq [symbol .kwSuper, symbol .dot, symbol .identifier]]

/-- The token lists that an expression of the grammar stands for. -/
inductive Derives : Ebnf → List Token → Prop
  | symbol {s : Symbol} {t : Token} : t.is s = true → Derives (.symbol s) [t]
  | number {t : Token} {x : Double} : t.kind = .number x → Derives .number [t]
  | string {t : Token} {text : String} : t.kind = .string text → Derives .string [t]
  | rule {n : Nonterminal} {w : List Token} : Derives (rules n) w → Derives (.rule n) w
  | nil : Derives (.seq []) []
  | cons {e : Ebnf} {es : List Ebnf} {u v : List Token} :
      Derives e u → Derives (.seq es) v → Derives (.seq (e :: es)) (u ++ v)
  | choice {e : Ebnf} {es : List Ebnf} {w : List Token} :
      e ∈ es → Derives e w → Derives (.choice es) w
  | optNone {e : Ebnf} : Derives (.opt e) []
  | optSome {e : Ebnf} {w : List Token} : Derives e w → Derives (.opt e) w
  | manyNil {e : Ebnf} : Derives (.many e) []
  | manyCons {e : Ebnf} {u v : List Token} :
      Derives e u → Derives (.many e) v → Derives (.many e) (u ++ v)
  | listOne {limit : Nat} {e : Ebnf} {w : List Token} :
      Derives e w → Derives (.list (limit + 1) e) w
  | listCons {limit : Nat} {e : Ebnf} {u v : List Token} {comma : Token} :
      Derives e u → comma.is .comma = true → Derives (.list limit e) v →
        Derives (.list (limit + 1) e) (u ++ comma :: v)

namespace Derives

variable {e : Ebnf} {es : List Ebnf} {s : Symbol} {n : Nonterminal} {w : List Token}

@[simp] theorem symbol_iff : Derives (.symbol s) w ↔ ∃ t, w = [t] ∧ t.is s = true := by
  constructor
  · intro h
    cases h with
    | symbol ht => exact ⟨_, rfl, ht⟩
  · rintro ⟨t, rfl, ht⟩
    exact .symbol ht

theorem rule_iff : Derives (.rule n) w ↔ Derives (rules n) w := by
  constructor
  · intro h
    cases h with
    | rule h => exact h
  · exact .rule

@[simp] theorem seq_nil_iff : Derives (.seq []) w ↔ w = [] := by
  constructor
  · intro h
    cases h
    rfl
  · rintro rfl
    exact .nil

@[simp] theorem seq_cons_iff :
    Derives (.seq (e :: es)) w ↔ ∃ u v, w = u ++ v ∧ Derives e u ∧ Derives (.seq es) v := by
  constructor
  · intro h
    cases h with
    | cons hu hv => exact ⟨_, _, rfl, hu, hv⟩
  · rintro ⟨u, v, rfl, hu, hv⟩
    exact .cons hu hv

theorem seq_one_iff : Derives (.seq [e]) w ↔ Derives e w := by
  simp

/-- The last part of a sequence. -/
theorem last (h : Derives e w) : Derives (.seq [e]) w := seq_one_iff.2 h

theorem many_append {v : List Token} (hw : Derives (.many e) w) (hv : Derives (.many e) v) :
    Derives (.many e) (w ++ v) := by
  generalize he : Ebnf.many e = e' at hw
  induction hw with
  | manyNil =>
    obtain rfl := Ebnf.many.inj he
    exact hv
  | manyCons hu _ _ ih =>
    obtain rfl := Ebnf.many.inj he
    rw [List.append_assoc]
    exact .manyCons hu (ih rfl)
  | _ => cases he

theorem many_one (h : Derives e w) : Derives (.many e) w := by
  simpa using Derives.manyCons h .manyNil

/-- A symbol in front of what a sequence stands for. -/
theorem symbol_cons {t : Token} (ht : t.is s = true) (h : Derives (.seq es) w) :
    Derives (.seq (.symbol s :: es)) (t :: w) :=
  .cons (.symbol ht) h

end Derives
end Lox
