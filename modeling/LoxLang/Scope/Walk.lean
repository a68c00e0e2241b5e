import LoxLang.Scope.Resolve

/-!
# Resolution within a limit

The walk of resolution as a session takes it: it may go only so many nodes deep, and where it cannot
go deeper it stops for good. A stopped walk leaves a piece in which the references that it came by
have their numbers and the others do not, and what it had found wrong until then. A walk that is not
stopped does what `Stmt.resolve` and `Expr.resolve` do.
-/

namespace LoxLang

/-- What a walk leaves: the piece with the references resolved that it came by, the scopes behind it
and the violations that it found. -/
structure Walk (α : Type) where
  tree : α
  scopes : List Scope
  findings : List Finding
  stopped : Bool

namespace Walk

variable {α β γ : Type}

/-- A walk that came to the end of a piece. -/
def done (tree : α) (scopes : List Scope) (findings : List Finding) : Walk α :=
  ⟨tree, scopes, findings, false⟩

/-- Goes one node deeper, if there is room for it. -/
def enter (room : Nat) (tree : α) (scopes : List Scope) (visit : Nat → Walk α) : Walk α :=
  match room with
  | 0 => ⟨tree, scopes, [], true⟩
  | room + 1 => visit room

/-- Goes on with the piece that comes next in a whole. A walk that has stopped leaves it as it
is. -/
def andThen (w : Walk α) (next : β) (whole : α → β → γ) (visit : List Scope → Walk β) : Walk γ :=
  if w.stopped then ⟨whole w.tree next, w.scopes, w.findings, true⟩
  else
    let v := visit w.scopes
    ⟨whole w.tree v.tree, v.scopes, w.findings ++ v.findings, v.stopped⟩

/-- The walk over a part as one over the whole. -/
def map (f : α → β) (w : Walk α) : Walk β := { w with tree := f w.tree }

/-- The walk over a piece whose scopes are left in another state. -/
def leaving (scopes : List Scope → List Scope) (w : Walk α) : Walk α :=
  { w with scopes := scopes w.scopes }

/-- The walk with something found before it. -/
def behind (findings : List Finding) (w : Walk α) : Walk α :=
  { w with findings := findings ++ w.findings }

/-- What is reported on a walk. -/
def reports (w : Walk α) : List Report := w.findings.map Finding.report

end Walk

open Walk

/-- The walk by a use of a variable. -/
def Reference.walk (scopes : List Scope) (room : Nat) (r : Reference) : Walk Reference :=
  enter room r scopes fun _ => done (r.resolve scopes) scopes (r.readFindings scopes)

mutual
def Expr.walk (around : Enclosing) (scopes : List Scope) (room : Nat) : Expr → Walk Expr
  | .missing => done .missing scopes []
  | .assign target value => enter room (.assign target value) scopes fun room =>
    (value.walk around scopes room).andThen target (fun value target => .assign target value)
      fun scopes => done (target.resolve scopes) scopes []
  | .binary left op right => enter room (.binary left op right) scopes fun room =>
    (left.walk around scopes room).andThen right (fun left right => .binary left op right)
      fun scopes => right.walk around scopes room
  | .call callee paren arguments => enter room (.call callee paren arguments) scopes fun room =>
    (callee.walk around scopes room).andThen arguments
      (fun callee arguments => .call callee paren arguments)
      fun scopes => walkExprs around scopes room arguments
  | .get object name => enter room (.get object name) scopes fun room =>
    (object.walk around scopes room).map fun object => .get object name
  | .grouping inner => enter room (.grouping inner) scopes fun room =>
    (inner.walk around scopes room).map .grouping
  | .literal value => enter room (.literal value) scopes fun _ => done (.literal value) scopes []
  | .logical left op right => enter room (.logical left op right) scopes fun room =>
    (left.walk around scopes room).andThen right (fun left right => .logical left op right)
      fun scopes => right.walk around scopes room
  | .set object name value => enter room (.set object name value) scopes fun room =>
    (value.walk around scopes room).andThen object (fun value object => .set object name value)
      fun scopes => object.walk around scopes room
  | .super keyword method => enter room (.super keyword method) scopes fun _ =>
    done (.super (keyword.resolve scopes) method) scopes (around.superFindings keyword.name)
  | .this keyword => enter room (.this keyword) scopes fun _ =>
    if around.classKind.isNone then
      done (.this keyword) scopes [(keyword.name, .thisOutsideClass)]
    else done (.this (keyword.resolve scopes)) scopes []
  | .unary op right => enter room (.unary op right) scopes fun room =>
    (right.walk around scopes room).map fun right => .unary op right
  | .variable target => (target.walk scopes room).map .variable
def walkExprs (around : Enclosing) (scopes : List Scope) (room : Nat) : List Expr → Walk (List Expr)
  | [] => done [] scopes []
  | e :: rest =>
    (e.walk around scopes room).andThen rest List.cons fun scopes =>
      walkExprs around scopes room rest
end

def Expr.walkOption (around : Enclosing) (scopes : List Scope) (room : Nat) :
    Option Expr → Walk (Option Expr)
  | none => done none scopes []
  | some e => (e.walk around scopes room).map some

/-- The walk by the superclass of a class of the given name, if it has one. -/
def Reference.walkSuperclass (scopes : List Scope) (className : Token) (room : Nat) :
    Option Reference → Walk (Option Reference)
  | none => done none scopes []
  | some r =>
    ((r.walk scopes room).map some).behind
      (findingIf (className.lexeme = r.name.lexeme) r.name .selfInheritance)

mutual
def Stmt.walk (around : Enclosing) (scopes : List Scope) (room : Nat) : Stmt → Walk Stmt
  | .missing => done .missing scopes []
  | .block body => enter room (.block body) scopes fun room =>
    ((walkStmts around ([] :: scopes) room body).leaving fun _ => scopes).map .block
  | .classDecl name superclass methods =>
    enter room (.classDecl name superclass methods) scopes fun room =>
      let outer := Scope.introduce name scopes
      let kind := if superclass.isSome then ClassKind.derived else .base
      (((Reference.walkSuperclass outer name room superclass).andThen methods
        (Stmt.classDecl name) fun outer => walkMethods ⟨around.function, some kind⟩
          (Scope.aroundMethods superclass.isSome outer) room methods).leaving
            fun _ => outer).behind (Scope.declareFindings name scopes)
  | .expression value => enter room (.expression value) scopes fun room =>
    (value.walk around scopes room).map .expression
  | .function f => enter room (.function f) scopes fun room =>
    let outer := Scope.introduce f.name scopes
    ((f.walk ⟨some .plain, around.classKind⟩ outer room).map Stmt.function).behind
      (Scope.declareFindings f.name scopes)
  | .ifElse condition thenBranch elseBranch =>
    enter room (.ifElse condition thenBranch elseBranch) scopes fun room =>
      ((condition.walk around scopes room).andThen thenBranch Prod.mk fun scopes =>
        thenBranch.walk around scopes room).andThen elseBranch
          (fun before elseBranch => .ifElse before.1 before.2 elseBranch) fun scopes =>
            elseBranch.walk around scopes room
  | .print value => enter room (.print value) scopes fun room =>
    (value.walk around scopes room).map .print
  | .returning keyword value => enter room (.returning keyword value) scopes fun room =>
    ((Expr.walkOption around scopes room value).map (Stmt.returning keyword)).behind
      (around.returnFindings keyword value.isSome)
  | .varDecl name initializer => enter room (.varDecl name initializer) scopes fun room =>
    let inner := Scope.declare name.lexeme scopes
    (((Expr.walkOption around inner room initializer).leaving (Scope.define name.lexeme)).map
      (Stmt.varDecl name)).behind (Scope.declareFindings name scopes)
  | .whileLoop condition body => enter room (.whileLoop condition body) scopes fun room =>
    (condition.walk around scopes room).andThen body .whileLoop fun scopes =>
      body.walk around scopes room
/-- The walk over a function, whose scopes are left where it ends. -/
def Function.walk (around : Enclosing) (scopes : List Scope) (room : Nat) :
    Function → Walk Function
  | .mk name parameters body =>
    let (inner, fs) := Scope.introduceAll parameters ([] :: scopes)
    (((walkStmts around inner room body).leaving fun _ => scopes).map
      (Function.mk name parameters)).behind fs
def walkMethods (around : Enclosing) (scopes : List Scope) (room : Nat) :
    List Function → Walk (List Function)
  | [] => done [] scopes []
  | f :: rest =>
    (f.walk ⟨some (.ofMethod f.name.lexeme), around.classKind⟩ scopes room).andThen rest List.cons
      fun scopes => walkMethods around scopes room rest
def walkStmts (around : Enclosing) (scopes : List Scope) (room : Nat) :
    List Stmt → Walk (List Stmt)
  | [] => done [] scopes []
  | s :: rest =>
    (s.walk around scopes room).andThen rest List.cons fun scopes =>
      walkStmts around scopes room rest
end

/-- The walk over a program. -/
def walkProgram (room : Nat) (program : List Stmt) : Walk (List Stmt) :=
  walkStmts .topLevel [] room program

/-- The walk over an expression by itself. -/
def walkExpression (room : Nat) (e : Expr) : Walk Expr := e.walk .topLevel [] room

end LoxLang
