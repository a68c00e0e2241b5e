import LoxLang.Grammar.Rule

/-!
# The grammar of expressions

Binary operators come in levels of precedence (`levels`), each associating to the left; assignment
binds loosest and associates to the right; a call or a property binds tightest. `room` bounds how
deeply expressions are nested.

    expression ::= binary ("=" expression)?      with a variable or a property on the left
    binary     ::= one level per line of `levels`, unary at the bottom
    unary      ::= ("!" | "-") unary | call
    call       ::= primary ("(" arguments ")" | "." IDENTIFIER)*
    primary    ::= constant | IDENTIFIER | "this" | "super" "." IDENTIFIER | "(" expression ")"
-/

namespace LoxLang.Grammar

open Rule

/-- The binary operators, loosest level first. -/
def levels : List (List TokenKind) :=
  [[.kwOr], [.kwAnd], [.bangEqual, .equalEqual], [.greater, .greaterEqual, .less, .lessEqual],
   [.minus, .plus], [.slash, .star]]

/-- The node of an operator between two operands. -/
def join (left : Expr) (operator : Token) (right : Expr) : Expr :=
  if operator.kind = .kwOr || operator.kind = .kwAnd then .logical left operator right
  else .binary left operator right

/-- Further operators of one level behind a left operand. -/
def chainInto (operators : List TokenKind) (operand : Rule Expr) : List Token → Expr → Rule Expr
  | [], left => pure left
  | _ :: turns, left => do
    match ← accept operators with
    | some operator => chainInto operators operand turns (join left operator (← operand))
    | none => pure left

/-- Operands with operators of one level between them. -/
def chain (operators : List TokenKind) (operand : Rule Expr) : Rule Expr := do
  let left ← operand
  chainInto operators operand (← remaining) left

/-- An expression of the given levels over operands that bind tighter than all of them. -/
def binary (operand : Rule Expr) : List (List TokenKind) → Rule Expr
  | [] => operand
  | operators :: tighter => chain operators (binary operand tighter)

/-- What an assignment to an expression is; only variables and properties can be assigned. -/
def assignment? (target value : Expr) : Option Expr :=
  match target with
  | .variable reference => some (.assign reference value)
  | .get object name => some (.set object name value)
  | _ => none

/-- The expression behind a left side, when an equals sign follows. A bad target is complained about
and stands for the whole assignment. -/
def assignTo (value : Rule Expr) (target : Expr) : Rule Expr := do
  match ← accept [.equal] with
  | none => pure target
  | some equals =>
    match assignment? target (← value) with
    | some e => pure e
    | none => do
      complain equals "Invalid assignment target."
      pure target

def primary (expression : Rule Expr) : Rule Expr := do
  match ← accept [.kwFalse, .kwTrue, .kwNil, .number, .string, .kwSuper, .kwThis, .identifier,
      .leftParen] with
  | none => reject "Expect expression."
  | some t =>
    match t.kind with
    | .kwFalse => pure (.literal (.bool false))
    | .kwTrue => pure (.literal (.bool true))
    | .kwNil => pure (.literal .nil)
    | .kwSuper => do
      let _ ← expect .dot "Expect '.' after 'super'."
      let method ← expect .identifier "Expect superclass method name."
      pure (.super ⟨t, none⟩ method)
    | .kwThis => pure (.this ⟨t, none⟩)
    | .identifier => pure (.variable ⟨t, none⟩)
    | .leftParen => do
      let inner ← expression
      let _ ← expect .rightParen "Expect ')' after expression."
      pure (.grouping inner)
    | _ => pure (.literal (t.literal.getD .nil))

/-- Further calls and properties behind an expression. -/
def suffixesInto (expression : Rule Expr) : List Token → Expr → Rule Expr
  | [], e => pure e
  | _ :: turns, e => do
    match ← accept [.leftParen, .dot] with
    | none => pure e
    | some t =>
      if t.kind = .leftParen then do
        let arguments ← commaList "Can't have more than 255 arguments." expression
        let paren ← expect .rightParen "Expect ')' after arguments."
        suffixesInto expression turns (.call e paren arguments)
      else do
        let name ← expect .identifier "Expect property name after '.'."
        suffixesInto expression turns (.get e name)

def call (expression : Rule Expr) : Rule Expr := do
  let e ← primary expression
  suffixesInto expression (← remaining) e

mutual
def expression : Nat → Rule Expr
  | 0 => tooDeep
  | room + 1 => do assignTo (expression room) (← binary (unary room) levels)
def unary : Nat → Rule Expr
  | 0 => tooDeep
  | room + 1 => do
    match ← accept [.bang, .minus] with
    | some operator => pure (.unary operator (← unary room))
    | none => call (expression room)
end

end LoxLang.Grammar
