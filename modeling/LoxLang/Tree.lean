import LoxLang.Token

/-!
# The trees of Lox programs

A `Reference` to a variable, to `this` or to `super` carries the number of scopes between it and the
scope that declares its name, once that is known; a reference without a number is looked up among
the globals. The two `missing` nodes stand where there is no node: for a declaration that could not
be read, for an absent `else`, and for the holes of a tree that was not read from text.
-/

namespace LoxLang

/-- A use of a name. -/
structure Reference where
  name : Token
  /-- Scopes between the use and the declaration, 0 for the innermost scope. -/
  hops : Option Nat
deriving Inhabited

inductive Expr where
  | missing
  | assign (target : Reference) (value : Expr)
  | binary (left : Expr) (operator : Token) (right : Expr)
  /-- The closing parenthesis tells where a failing call is. -/
  | call (callee : Expr) (paren : Token) (arguments : List Expr)
  | get (object : Expr) (name : Token)
  | grouping (inner : Expr)
  | literal (value : Constant)
  | logical (left : Expr) (operator : Token) (right : Expr)
  | set (object : Expr) (name : Token) (value : Expr)
  | super (keyword : Reference) (method : Token)
  | this (keyword : Reference)
  | unary (operator : Token) (right : Expr)
  | variable (target : Reference)
deriving Inhabited

mutual
inductive Stmt where
  | missing
  | block (body : List Stmt)
  | classDecl (name : Token) (superclass : Option Reference) (methods : List Function)
  | expression (value : Expr)
  | function (declaration : Function)
  | ifElse (condition : Expr) (thenBranch elseBranch : Stmt)
  | print (value : Expr)
  | returning (keyword : Token) (value : Option Expr)
  | varDecl (name : Token) (initializer : Option Expr)
  | whileLoop (condition : Expr) (body : Stmt)
/-- A named function or method. -/
inductive Function where
  | mk (name : Token) (parameters : List Token) (body : List Stmt)
end

instance : Inhabited Stmt := ⟨.missing⟩

instance : Inhabited Function := ⟨.mk default [] []⟩

namespace Function

def name : Function → Token
  | mk name _ _ => name

def parameters : Function → List Token
  | mk _ parameters _ => parameters

def body : Function → List Stmt
  | mk _ _ body => body

end Function

end LoxLang
