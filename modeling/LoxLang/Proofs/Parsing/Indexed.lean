import LoxLang.Grammar.Program

/-!
# The grammar read by index

Here the reader stands at the index of a token (`Spot`), looks tokens up by index and goes past one
at a time, and its loops are bounded only by a number of turns. A look-up outside the tokens and a
loop that has no turns left are results of their own (`Result`). What the reader does is written
down (`Deed`): which tokens it goes past, and where it attempts a declaration. The rules are those
of the grammar, one for one.
-/

namespace LoxLang.Grammar

/-- What a reader does. -/
inductive Deed where
  /-- It goes past the token of an index. -/
  | takes (i : Nat)
  /-- It attempts a declaration. -/
  | begins (i : Nat)
  /-- An attempt that began at one index is over at another: a declaration was read, or what was not
  one has been skipped. -/
  | ends (start stop : Nat) (read : Bool)

/-- Where a reader stands, with the reports and the deeds so far, the last ones first. -/
structure Spot where
  current : Nat
  made : List Report
  deeds : List Deed

/-- Behind the next token. -/
def Spot.past (s : Spot) : Spot := ⟨s.current + 1, s.made, .takes s.current :: s.deeds⟩

/-- A deed more. -/
def Spot.log (s : Spot) (deed : Deed) : Spot := ⟨s.current, s.made, deed :: s.deeds⟩

/-- How a reader comes out. -/
inductive Result (α : Type) where
  | read (value : α) (next : Spot)
  | gaveUp (next : Spot)
  | tooDeep (next : Spot)
  /-- A token outside the tokens was looked up. -/
  | outside
  /-- A loop took all its turns. -/
  | endless

/-- A reader by index. -/
def Walk (α : Type) := List Token → Spot → Result α

namespace Walk

variable {α β : Type}

protected def pure (a : α) : Walk α := fun _ s => .read a s

protected def bind (w : Walk α) (f : α → Walk β) : Walk β := fun tokens s =>
  match w tokens s with
  | .read a next => f a tokens next
  | .gaveUp next => .gaveUp next
  | .tooDeep next => .tooDeep next
  | .outside => .outside
  | .endless => .endless

instance : Monad Walk where
  pure := Walk.pure
  bind := Walk.bind

/-! ## Tokens -/

def lookUp (i : Nat) : Walk Token := fun tokens s =>
  match tokens[i]? with
  | some t => .read t s
  | none => .outside

def peek : Walk Token := fun tokens s => lookUp s.current tokens s

/-- The token gone past last. -/
def previous : Walk Token := fun tokens s =>
  match s.current with
  | 0 => .outside
  | i + 1 => lookUp i tokens s

def atEnd : Walk Bool := do return (← peek).kind = .eof

def check (kind : TokenKind) : Walk Bool := do
  if ← atEnd then pure false else return (← peek).kind = kind

/-- Goes past a token, whichever it is. -/
def pass : Walk Unit := fun _ s => .read () s.past

/-- Goes past a token, but not past the end. -/
def advance : Walk Token := do
  if ← atEnd then previous
  else do
    pass
    previous

def tooDeep : Walk α := fun _ s => .tooDeep s

def endless : Walk α := fun _ _ => .endless

/-- The turns that a loop is given: as many as there are tokens, with the end. -/
def turns : Walk Nat := fun tokens s => .read tokens.length s

def complain (token : Token) (message : String) : Walk Unit := fun _ s =>
  .read () { s with made := .atToken token message :: s.made }

def giveUp : Walk α := fun _ s => .gaveUp s

def reject (message : String) : Walk α := do
  complain (← peek) message
  giveUp

def accept : List TokenKind → Walk (Option Token)
  | [] => pure none
  | kind :: kinds => do
    if ← check kind then return some (← advance) else accept kinds

def expect (kind : TokenKind) (message : String) : Walk Token := do
  if ← check kind then advance else reject message

/-! ## Loops -/

def piecesInto (reached : Walk Bool) (w : Walk α) : Nat → List α → Walk (List α)
  | 0, _ => endless
  | n + 1, acc => do
    if ← reached then pure acc.reverse else piecesInto reached w n ((← w) :: acc)

/-- Whether a closing brace or the end is reached. -/
def closed : Walk Bool := do if ← check .rightBrace then pure true else atEnd

def piecesUntil (reached : Walk Bool) (w : Walk α) : Walk (List α) := do
  piecesInto reached w (← turns) []

def listInto (complaint : String) (w : Walk α) : Nat → List α → Walk (List α)
  | 0, _ => endless
  | n + 1, acc => do
    if 255 ≤ acc.length then complain (← peek) complaint
    let a ← w
    match ← accept [.comma] with
    | none => pure (a :: acc).reverse
    | some _ => listInto complaint w n (a :: acc)

def commaList (complaint : String) (w : Walk α) : Walk (List α) := do
  if ← check .rightParen then pure [] else listInto complaint w (← turns) []

/-! ## Expressions -/

def chainInto (operators : List TokenKind) (operand : Walk Expr) : Nat → Expr → Walk Expr
  | 0, _ => endless
  | n + 1, left => do
    match ← accept operators with
    | some operator => chainInto operators operand n (join left operator (← operand))
    | none => pure left

def chain (operators : List TokenKind) (operand : Walk Expr) : Walk Expr := do
  let left ← operand
  chainInto operators operand (← turns) left

def binary (operand : Walk Expr) : List (List TokenKind) → Walk Expr
  | [] => operand
  | operators :: tighter => chain operators (binary operand tighter)

def assignTo (value : Walk Expr) (target : Expr) : Walk Expr := do
  match ← accept [.equal] with
  | none => pure target
  | some equals =>
    match assignment? target (← value) with
    | some e => pure e
    | none => do
      complain equals "Invalid assignment target."
      pure target

def primary (expression : Walk Expr) : Walk Expr := do
  match ← accept [.kwFalse, .kwTrue, .kwNil, .number, .string, .kwSuper, .kwThis, .identifier,
      .leftParen] with
  | none => reject "Expect expression."
  | some t =>
    match t.kind with
    | .kwFalse => pure (.literal (.bool false))
    | .kwTrue => pure (.literal (.bool true))
    | .kwNil => pure (.literal .nil)
    | .kwSuper => do
      let _ ← expect .dot "Expect '.' after 'super'."
      let method ← expect .identifier "Expect superclass method name."
      pure (.super ⟨t, none⟩ method)
    | .kwThis => pure (.this ⟨t, none⟩)
    | .identifier => pure (.variable ⟨t, none⟩)
    | .leftParen => do
      let inner ← expression
      let _ ← expect .rightParen "Expect ')' after expression."
      pure (.grouping inner)
    | _ => pure (.literal (t.literal.getD .nil))

def suffixesInto (expression : Walk Expr) : Nat → Expr → Walk Expr
  | 0, _ => endless
  | n + 1, e => do
    match ← accept [.leftParen, .dot] with
    | none => pure e
    | some t =>
      if t.kind = .leftParen then do
        let arguments ← commaList "Can't have more than 255 arguments." expression
        let paren ← expect .rightParen "Expect ')' after arguments."
        suffixesInto expression n (.call e paren arguments)
      else do
        let name ← expect .identifier "Expect property name after '.'."
        suffixesInto expression n (.get e name)

def call (expression : Walk Expr) : Walk Expr := do
  let e ← primary expression
  suffixesInto expression (← turns) e

mutual
def expression : Nat → Walk Expr
  | 0 => tooDeep
  | room + 1 => do assignTo (expression room) (← binary (unary room) levels)
def unary : Nat → Walk Expr
  | 0 => tooDeep
  | room + 1 => do
    match ← accept [.bang, .minus] with
    | some operator => return .unary operator (← unary room)
    | none => call (expression room)
end

/-! ## Statements -/

/-- Goes on to the next boundary: to behind a semicolon or to a word that begins a statement. -/
def settle : Nat → Walk Unit
  | 0 => endless
  | n + 1 => do
    if ← atEnd then pure ()
    else if (← previous).kind = .semicolon then pure ()
    else if (← peek).kind.startsStatement then pure ()
    else do
      let _ ← advance
      settle n

/-- Skips what is no declaration, a token at least. -/
def synchronize : Walk Unit := do
  let _ ← advance
  settle (← turns)

def log (deed : Spot → Deed) : Walk Unit := fun _ s => .read () (s.log (deed s))

/-- A declaration, or nothing in place of one that gives up. -/
def attempt (w : Walk Stmt) : Walk Stmt := fun tokens s =>
  match (log (.begins ·.current) >>= fun _ => w) tokens s with
  | .read a next => (log (.ends s.current ·.current true) >>= fun _ => pure a) tokens next
  | .gaveUp next =>
    (synchronize >>= fun _ => log (.ends s.current ·.current false) >>= fun _ => pure .missing)
      tokens next
  | result => result

def block (declaration : Walk Stmt) : Walk (List Stmt) := do
  let body ← piecesUntil closed declaration
  let _ ← expect .rightBrace "Expect '\x7d' after block."
  pure body

def function (kind : String) (declaration : Walk Stmt) : Walk Function := do
  let name ← expect .identifier ("Expect " ++ kind ++ " name.")
  let _ ← expect .leftParen ("Expect '(' after " ++ kind ++ " name.")
  let parameters ← commaList "Can't have more than 255 parameters."
    (expect .identifier "Expect parameter name.")
  let _ ← expect .rightParen "Expect ')' after parameters."
  let _ ← expect .leftBrace ("Expect '\x7b' before " ++ kind ++ " body.")
  let body ← block declaration
  pure (.mk name parameters body)

def classDecl (declaration : Walk Stmt) : Walk Stmt := do
  let name ← expect .identifier "Expect class name."
  let superclass ← do
    match ← accept [.less] with
    | none => pure none
    | some _ => do pure (some ⟨← expect .identifier "Expect superclass name.", none⟩)
  let _ ← expect .leftBrace "Expect '\x7b' before class body."
  let methods ← piecesUntil closed (function "method" declaration)
  let _ ← expect .rightBrace "Expect '\x7d' after class body."
  pure (.classDecl name superclass methods)

def varDecl (expression : Walk Expr) : Walk Stmt := do
  let name ← expect .identifier "Expect variable name."
  let initializer ← do
    match ← accept [.equal] with
    | none => pure none
    | some _ => do pure (some (← expression))
  let _ ← expect .semicolon "Expect ';' after variable declaration."
  pure (.varDecl name initializer)

def expressionStatement (expression : Walk Expr) : Walk Stmt := do
  let e ← expression
  let _ ← expect .semicolon "Expect ';' after expression."
  pure (.expression e)

def optional (kind : TokenKind) (expression : Walk Expr) : Walk (Option Expr) := do
  if ← check kind then pure none else pure (some (← expression))

def forLoop (expression : Walk Expr) (statement : Walk Stmt) : Walk Stmt := do
  let _ ← expect .leftParen "Expect '(' after 'for'."
  let initializer ← do
    match ← accept [.semicolon, .kwVar] with
    | none => do pure (some (← expressionStatement expression))
    | some t =>
      if t.kind = .semicolon then pure none else do pure (some (← varDecl expression))
  let condition ← optional .semicolon expression
  let _ ← expect .semicolon "Expect ';' after loop condition."
  let increment ← optional .rightParen expression
  let _ ← expect .rightParen "Expect ')' after for clauses."
  let body ← statement
  pure (desugarFor initializer condition increment body)

def conditional (expression : Walk Expr) (statement : Walk Stmt) : Walk Stmt := do
  let _ ← expect .leftParen "Expect '(' after 'if'."
  let condition ← expression
  let _ ← expect .rightParen "Expect ')' after if condition."
  let thenBranch ← statement
  match ← accept [.kwElse] with
  | none => pure (.ifElse condition thenBranch .missing)
  | some _ => do pure (.ifElse condition thenBranch (← statement))

def whileLoop (expression : Walk Expr) (statement : Walk Stmt) : Walk Stmt := do
  let _ ← expect .leftParen "Expect '(' after 'while'."
  let condition ← expression
  let _ ← expect .rightParen "Expect ')' after condition."
  let body ← statement
  pure (.whileLoop condition body)

def printStatement (expression : Walk Expr) : Walk Stmt := do
  let e ← expression
  let _ ← expect .semicolon "Expect ';' after value."
  pure (.print e)

def returnStatement (expression : Walk Expr) (keyword : Token) : Walk Stmt := do
  let value ← optional .semicolon expression
  let _ ← expect .semicolon "Expect ';' after return value."
  pure (.returning keyword value)

mutual
def declaration : Nat → Walk Stmt
  | 0 => tooDeep
  | room + 1 => attempt do
    match ← accept [.kwClass, .kwFun, .kwVar] with
    | none => statement room
    | some t =>
      match t.kind with
      | .kwClass => classDecl (declaration room)
      | .kwFun => do pure (.function (← function "function" (declaration room)))
      | _ => varDecl (expression room)
def statement : Nat → Walk Stmt
  | 0 => tooDeep
  | room + 1 => do
    match ← accept [.kwFor, .kwIf, .kwPrint, .kwReturn, .kwWhile, .leftBrace] with
    | none => expressionStatement (expression room)
    | some t =>
      match t.kind with
      | .kwFor => forLoop (expression room) (statement room)
      | .kwIf => conditional (expression room) (statement room)
      | .kwPrint => printStatement (expression room)
      | .kwReturn => returnStatement (expression room) t
      | .kwWhile => whileLoop (expression room) (statement room)
      | _ => do pure (.block (← block (declaration room)))
end

/-! ## Programs -/

def program (room : Nat) : Walk (List Stmt) := piecesUntil atEnd (declaration room)

def toEnd (expression : Walk Expr) : Walk Expr := do
  let e ← expression
  if ← atEnd then pure e else reject "Expect end of expression."

/-- An expression that takes all tokens, or nothing after a report that gives up. -/
def wholeExpression (room : Nat) : Walk (Option Expr) := fun tokens s =>
  match toEnd (expression room) tokens s with
  | .read e next => .read (some e) next
  | .gaveUp next => .read none next
  | .tooDeep next => .tooDeep next
  | .outside => .outside
  | .endless => .endless

end Walk

/-- A reader at the first of some tokens. -/
def Spot.first : Spot := ⟨0, [], []⟩

end LoxLang.Grammar
