import LoxLang.Grammar.Expression

/-!
# The grammar of statements

A declaration that gives up is left out: reading goes on behind the next semicolon or in front of
the next word that begins a statement (`recovering`). A `for` loop is read as the `while` loop that
it abbreviates (`desugarFor`).

    declaration ::= "class" classDecl | "fun" function | "var" varDecl | statement
    classDecl   ::= IDENTIFIER ("<" IDENTIFIER)? "{" function* "}"
    function    ::= IDENTIFIER "(" parameters ")" block
    varDecl     ::= IDENTIFIER ("=" expression)? ";"
    statement   ::= "for" forLoop | "if" conditional | "print" expression ";"
                  | "return" expression? ";" | "while" "(" expression ")" statement
                  | block | expression ";"
    forLoop     ::= "(" ("var" varDecl | expression ";" | ";") expression? ";" expression? ")"
                    statement
    conditional ::= "(" expression ")" statement ("else" statement)?
    block       ::= "{" declaration* "}"
-/

namespace LoxLang.Grammar

open Rule

/-- Tokens from behind the next semicolon or from the next word that begins a statement on, when
`previous` is the token just skipped. -/
def settle (previous : Token) : List Token → List Token
  | [] => []
  | t :: rest =>
    if previous.kind = .semicolon || t.kind.startsStatement then t :: rest else settle t rest

/-- Where reading goes on after a declaration gave up at the front of some tokens, the first of
which is always skipped. -/
def skipToBoundary : List Token → List Token
  | [] => []
  | t :: rest => settle t rest

/-- A declaration, or nothing in place of one that gives up. -/
def recovering (p : Rule Stmt) : Rule Stmt := fun stop c =>
  match p stop c with
  | .gaveUp next => .read .missing ⟨skipToBoundary next.rest, next.made⟩
  | outcome => outcome

/-- A block after its opening brace. -/
def block (declaration : Rule Stmt) : Rule (List Stmt) := do
  let body ← piecesUntil [.rightBrace] declaration
  let _ ← expect .rightBrace "Expect '\x7d' after block."
  pure body

/-- A function from its name on; `kind` says what it is in reports. -/
def function (kind : String) (declaration : Rule Stmt) : Rule Function := do
  let name ← expect .identifier ("Expect " ++ kind ++ " name.")
  let _ ← expect .leftParen ("Expect '(' after " ++ kind ++ " name.")
  let parameters ← commaList "Can't have more than 255 parameters."
    (expect .identifier "Expect parameter name.")
  let _ ← expect .rightParen "Expect ')' after parameters."
  let _ ← expect .leftBrace ("Expect '\x7b' before " ++ kind ++ " body.")
  let body ← block declaration
  pure (.mk name parameters body)

/-- A class after its keyword. -/
def classDecl (declaration : Rule Stmt) : Rule Stmt := do
  let name ← expect .identifier "Expect class name."
  let superclass ← do
    match ← accept [.less] with
    | none => pure none
    | some _ => do pure (some ⟨← expect .identifier "Expect superclass name.", none⟩)
  let _ ← expect .leftBrace "Expect '\x7b' before class body."
  let methods ← piecesUntil [.rightBrace] (function "method" declaration)
  let _ ← expect .rightBrace "Expect '\x7d' after class body."
  pure (.classDecl name superclass methods)

/-- A variable declaration after its keyword. -/
def varDecl (expression : Rule Expr) : Rule Stmt := do
  let name ← expect .identifier "Expect variable name."
  let initializer ← do
    match ← accept [.equal] with
    | none => pure none
    | some _ => do pure (some (← expression))
  let _ ← expect .semicolon "Expect ';' after variable declaration."
  pure (.varDecl name initializer)

def expressionStatement (expression : Rule Expr) : Rule Stmt := do
  let e ← expression
  let _ ← expect .semicolon "Expect ';' after expression."
  pure (.expression e)

/-- An expression unless a token of the kind comes first. -/
def optional (kind : TokenKind) (expression : Rule Expr) : Rule (Option Expr) := do
  if ← sees [kind] then pure none else pure (some (← expression))

/-- The loop that a `for` loop abbreviates: the increment runs after the body, a missing condition
is true, and the initializer has a scope around the loop. -/
def desugarFor (initializer : Option Stmt) (condition increment : Option Expr) (body : Stmt) :
    Stmt :=
  let body := match increment with
    | none => body
    | some e => .block [body, .expression e]
  let loop := .whileLoop (condition.getD (.literal (.bool true))) body
  match initializer with
  | none => loop
  | some s => .block [s, loop]

/-- A `for` loop after its keyword. -/
def forLoop (expression : Rule Expr) (statement : Rule Stmt) : Rule Stmt := do
  let _ ← expect .leftParen "Expect '(' after 'for'."
  let initializer ← do
    match ← accept [.semicolon, .kwVar] with
    | none => do pure (some (← expressionStatement expression))
    | some t =>
      if t.kind = .semicolon then pure none else do pure (some (← varDecl expression))
  let condition ← optional .semicolon expression
  let _ ← expect .semicolon "Expect ';' after loop condition."
  let increment ← optional .rightParen expression
  let _ ← expect .rightParen "Expect ')' after for clauses."
  let body ← statement
  pure (desugarFor initializer condition increment body)

/-- A conditional after its keyword. An `else` belongs to the nearest `if`. -/
def conditional (expression : Rule Expr) (statement : Rule Stmt) : Rule Stmt := do
  let _ ← expect .leftParen "Expect '(' after 'if'."
  let condition ← expression
  let _ ← expect .rightParen "Expect ')' after if condition."
  let thenBranch ← statement
  match ← accept [.kwElse] with
  | none => pure (.ifElse condition thenBranch .missing)
  | some _ => do pure (.ifElse condition thenBranch (← statement))

/-- A `while` loop after its keyword. -/
def whileLoop (expression : Rule Expr) (statement : Rule Stmt) : Rule Stmt := do
  let _ ← expect .leftParen "Expect '(' after 'while'."
  let condition ← expression
  let _ ← expect .rightParen "Expect ')' after condition."
  let body ← statement
  pure (.whileLoop condition body)

/-- A `print` statement after its keyword. -/
def printStatement (expression : Rule Expr) : Rule Stmt := do
  let e ← expression
  let _ ← expect .semicolon "Expect ';' after value."
  pure (.print e)

/-- A `return` statement after its keyword. -/
def returnStatement (expression : Rule Expr) (keyword : Token) : Rule Stmt := do
  let value ← optional .semicolon expression
  let _ ← expect .semicolon "Expect ';' after return value."
  pure (.returning keyword value)

mutual
def declaration : Nat → Rule Stmt
  | 0 => tooDeep
  | room + 1 => recovering do
    match ← accept [.kwClass, .kwFun, .kwVar] with
    | none => statement room
    | some t =>
      match t.kind with
      | .kwClass => classDecl (declaration room)
      | .kwFun => do pure (.function (← function "function" (declaration room)))
      | _ => varDecl (expression room)
def statement : Nat → Rule Stmt
  | 0 => tooDeep
  | room + 1 => do
    match ← accept [.kwFor, .kwIf, .kwPrint, .kwReturn, .kwWhile, .leftBrace] with
    | none => expressionStatement (expression room)
    | some t =>
      match t.kind with
      | .kwFor => forLoop (expression room) (statement room)
      | .kwIf => conditional (expression room) (statement room)
      | .kwPrint => printStatement (expression room)
      | .kwReturn => returnStatement (expression room) t
      | .kwWhile => whileLoop (expression room) (statement room)
      | _ => do pure (.block (← block (declaration room)))
end

end LoxLang.Grammar
