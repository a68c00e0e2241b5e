import LoxLang.Report
import LoxLang.Scope

/-!
# Resolution

One walk over a tree gives every local reference the number of scopes to its declaration and finds
the violations, in the order of the walk (`resolveProgram`, `resolveExpression`). It never stops at
a violation. A reference that has its number keeps it.

The methods of a class stand inside two scopes of their own, one that declares `super`, if the class
has a superclass, and inside it one that declares `this` (`aroundMethods`). A function's parameters
and body share one scope.
-/

namespace LoxLang

/-- The number of a reference that has none yet. -/
def Reference.resolve (scopes : List Scope) (r : Reference) : Reference :=
  { r with hops := r.hops <|> Scope.distance? scopes r.name.lexeme }

/-- The violation of a variable that is read. -/
def Reference.readFindings (scopes : List Scope) (r : Reference) : List Finding :=
  findingIf (Scope.unready r.name.lexeme scopes) r.name .ownInitializer

/-- The violation of a use of `super`. -/
def Enclosing.superFindings (around : Enclosing) (keyword : Token) : List Finding :=
  match around.classKind with
  | none => [(keyword, .superOutsideClass)]
  | some .base => [(keyword, .superWithoutSuperclass)]
  | some .derived => []

mutual
def Expr.resolve (around : Enclosing) (scopes : List Scope) : Expr → Expr × List Finding
  | .missing => (.missing, [])
  | .assign target value =>
    let (value, fs) := value.resolve around scopes
    (.assign (target.resolve scopes) value, fs)
  | .binary left op right =>
    let (left, fs) := left.resolve around scopes
    let (right, gs) := right.resolve around scopes
    (.binary left op right, fs ++ gs)
  | .call callee paren arguments =>
    let (callee, fs) := callee.resolve around scopes
    let (arguments, gs) := resolveExprs around scopes arguments
    (.call callee paren arguments, fs ++ gs)
  | .get object name =>
    let (object, fs) := object.resolve around scopes
    (.get object name, fs)
  | .grouping inner =>
    let (inner, fs) := inner.resolve around scopes
    (.grouping inner, fs)
  | .literal value => (.literal value, [])
  | .logical left op right =>
    let (left, fs) := left.resolve around scopes
    let (right, gs) := right.resolve around scopes
    (.logical left op right, fs ++ gs)
  | .set object name value =>
    let (value, fs) := value.resolve around scopes
    let (object, gs) := object.resolve around scopes
    (.set object name value, fs ++ gs)
  | .super keyword method =>
    (.super (keyword.resolve scopes) method, around.superFindings keyword.name)
  | .this keyword =>
    if around.classKind.isNone then (.this keyword, [(keyword.name, .thisOutsideClass)])
    else (.this (keyword.resolve scopes), [])
  | .unary op right =>
    let (right, fs) := right.resolve around scopes
    (.unary op right, fs)
  | .variable target => (.variable (target.resolve scopes), target.readFindings scopes)
def resolveExprs (around : Enclosing) (scopes : List Scope) :
    List Expr → List Expr × List Finding
  | [] => ([], [])
  | e :: rest =>
    let (e, fs) := e.resolve around scopes
    let (rest, gs) := resolveExprs around scopes rest
    (e :: rest, fs ++ gs)
end

def Expr.resolveOption (around : Enclosing) (scopes : List Scope) :
    Option Expr → Option Expr × List Finding
  | none => (none, [])
  | some e =>
    let (e, fs) := e.resolve around scopes
    (some e, fs)

/-- The superclass of a class of the given name. -/
def Reference.resolveSuperclass (scopes : List Scope) (className : Token) (r : Reference) :
    Reference × List Finding :=
  (r.resolve scopes,
    findingIf (className.lexeme = r.name.lexeme) r.name .selfInheritance ++ r.readFindings scopes)

namespace Scope

/-- Declares a name that may be read at once. -/
def introduce (name : Token) (scopes : List Scope) : List Scope :=
  define name.lexeme (declare name.lexeme scopes)

/-- The violation of declaring a name. -/
def declareFindings (name : Token) (scopes : List Scope) : List Finding :=
  findingIf (redeclares name.lexeme scopes) name .redeclared

/-- Declares parameters in order. -/
def introduceAll : List Token → List Scope → List Scope × List Finding
  | [], scopes => (scopes, [])
  | p :: rest, scopes =>
    let (inner, fs) := introduceAll rest (introduce p scopes)
    (inner, declareFindings p scopes ++ fs)

/-- The scopes around the methods of a class. -/
def aroundMethods (hasSuperclass : Bool) (scopes : List Scope) : List Scope :=
  let outer := if hasSuperclass then [("super", true)] :: scopes else scopes
  [("this", true)] :: outer

end Scope

/-- The kind of a method of the given name. -/
def FunctionKind.ofMethod (name : String) : FunctionKind :=
  if name = "init" then .initializer else .method

/-- The violations of a `return` with or without a value. -/
def Enclosing.returnFindings (around : Enclosing) (keyword : Token) (hasValue : Bool) :
    List Finding :=
  findingIf around.function.isNone keyword .topLevelReturn ++
    findingIf (hasValue && around.function = some .initializer) keyword .initializerValue

/-- A resolved piece with the scopes behind it and its violations. -/
structure Resolved (α : Type) where
  tree : α
  scopes : List Scope
  findings : List Finding

mutual
def Stmt.resolve (around : Enclosing) (scopes : List Scope) : Stmt → Resolved Stmt
  | .missing => ⟨.missing, scopes, []⟩
  | .block body =>
    let inner := resolveStmts around ([] :: scopes) body
    ⟨.block inner.tree, scopes, inner.findings⟩
  | .classDecl name superclass methods =>
    let outer := Scope.introduce name scopes
    let parent := superclass.map (·.resolveSuperclass outer name)
    let kind := if superclass.isSome then ClassKind.derived else .base
    let (methods, fs) := resolveMethods ⟨around.function, some kind⟩
      (Scope.aroundMethods superclass.isSome outer) methods
    ⟨.classDecl name (parent.map (·.1)) methods, outer,
      Scope.declareFindings name scopes ++ (parent.map (·.2)).getD [] ++ fs⟩
  | .expression value =>
    let (value, fs) := value.resolve around scopes
    ⟨.expression value, scopes, fs⟩
  | .function f =>
    let outer := Scope.introduce f.name scopes
    let (g, fs) := f.resolve ⟨some .plain, around.classKind⟩ outer
    ⟨.function g, outer, Scope.declareFindings f.name scopes ++ fs⟩
  | .ifElse condition thenBranch elseBranch =>
    let (condition, fs) := condition.resolve around scopes
    let thenBranch := thenBranch.resolve around scopes
    let elseBranch := elseBranch.resolve around thenBranch.scopes
    ⟨.ifElse condition thenBranch.tree elseBranch.tree, elseBranch.scopes,
      fs ++ thenBranch.findings ++ elseBranch.findings⟩
  | .print value =>
    let (value, fs) := value.resolve around scopes
    ⟨.print value, scopes, fs⟩
  | .returning keyword value =>
    let (resolved, fs) := Expr.resolveOption around scopes value
    ⟨.returning keyword resolved, scopes, around.returnFindings keyword value.isSome ++ fs⟩
  | .varDecl name initializer =>
    let inner := Scope.declare name.lexeme scopes
    let (initializer, fs) := Expr.resolveOption around inner initializer
    ⟨.varDecl name initializer, Scope.define name.lexeme inner,
      Scope.declareFindings name scopes ++ fs⟩
  | .whileLoop condition body =>
    let (condition, fs) := condition.resolve around scopes
    let body := body.resolve around scopes
    ⟨.whileLoop condition body.tree, body.scopes, fs ++ body.findings⟩
def Function.resolve (around : Enclosing) (scopes : List Scope) :
    Function → Function × List Finding
  | .mk name parameters body =>
    let (inner, fs) := Scope.introduceAll parameters ([] :: scopes)
    let body := resolveStmts around inner body
    (.mk name parameters body.tree, fs ++ body.findings)
def resolveMethods (around : Enclosing) (scopes : List Scope) :
    List Function → List Function × List Finding
  | [] => ([], [])
  | f :: rest =>
    let (g, fs) := f.resolve ⟨some (.ofMethod f.name.lexeme), around.classKind⟩ scopes
    let (rest, gs) := resolveMethods around scopes rest
    (g :: rest, fs ++ gs)
def resolveStmts (around : Enclosing) (scopes : List Scope) : List Stmt → Resolved (List Stmt)
  | [] => ⟨[], scopes, []⟩
  | s :: rest =>
    let s := s.resolve around scopes
    let rest := resolveStmts around s.scopes rest
    ⟨s.tree :: rest.tree, rest.scopes, s.findings ++ rest.findings⟩
end

/-- The report of a violation. -/
def Finding.report (f : Finding) : Report := .atToken f.1 f.2.message

/-- A program with its references resolved, and what it does wrong. -/
def resolveProgram (program : List Stmt) : List Stmt × List Report :=
  let r := resolveStmts .topLevel [] program
  (r.tree, r.findings.map Finding.report)

/-- An expression by itself with its references resolved, and what it does wrong. -/
def resolveExpression (e : Expr) : Expr × List Report :=
  let (e, fs) := e.resolve .topLevel []
  (e, fs.map Finding.report)

end LoxLang
