import LoxLang.Number
import LoxLang.Tree

/-!
# Trees as text

A node is its kind and its fields between parentheses, a literal is its constant, a token is its
lexeme with its place (`Token.located`), a list stands between brackets, and a missing node is an
underscore (`displayProgram`).
-/

namespace LoxLang

/-- A token with its place. -/
def Token.located (t : Token) : String :=
  t.lexeme ++ "@" ++ toString t.line ++ ":" ++ toString t.column

namespace Tree

/-- The text of a node. -/
def node (kind : String) (fields : List String) : String :=
  "(" ++ String.intercalate " " (kind :: fields) ++ ")"

/-- The text of a list. -/
def list (items : List String) : String := "[" ++ String.intercalate " " items ++ "]"

/-- The text of a node that is not there. -/
def hole : String := "_"

end Tree

open LoxLang.Tree

/-- A constant in a tree; a string stands between quotes as it is. -/
def Constant.display : Constant → String
  | nil => "nil"
  | bool true => "true"
  | bool false => "false"
  | number x => Number.text x
  | string s => "\"" ++ s ++ "\""

def Reference.display (r : Reference) : String := node "Variable" [r.name.located]

mutual
def Expr.display : Expr → String
  | .missing => hole
  | .assign target value => node "Assign" [target.name.located, value.display]
  | .binary left op right => node "Binary" [left.display, op.located, right.display]
  | .call callee paren arguments =>
    node "Call" [callee.display, paren.located, list (displayExprs arguments)]
  | .get object name => node "Get" [object.display, name.located]
  | .grouping inner => node "Grouping" [inner.display]
  | .literal value => value.display
  | .logical left op right => node "Logical" [left.display, op.located, right.display]
  | .set object name value => node "Set" [object.display, name.located, value.display]
  | .super keyword method => node "Super" [keyword.name.located, method.located]
  | .this keyword => node "This" [keyword.name.located]
  | .unary op right => node "Unary" [op.located, right.display]
  | .variable target => target.display
def displayExprs : List Expr → List String
  | [] => []
  | e :: rest => e.display :: displayExprs rest
end

def Expr.displayOption : Option Expr → String
  | none => hole
  | some e => e.display

mutual
def Stmt.display : Stmt → String
  | .missing => hole
  | .block body => node "Block" [list (displayStmts body)]
  | .classDecl name superclass methods =>
    node "Class" [name.located, (superclass.map Reference.display).getD hole,
      list (displayFunctions methods)]
  | .expression value => node "Expression" [value.display]
  | .function f => f.display
  | .ifElse condition thenBranch elseBranch =>
    node "If" [condition.display, thenBranch.display, elseBranch.display]
  | .print value => node "Print" [value.display]
  | .returning keyword value => node "Return" [keyword.located, Expr.displayOption value]
  | .varDecl name initializer => node "Var" [name.located, Expr.displayOption initializer]
  | .whileLoop condition body => node "While" [condition.display, body.display]
def Function.display : Function → String
  | .mk name parameters body =>
    node "Function" [name.located, list (parameters.map Token.located), list (displayStmts body)]
def displayStmts : List Stmt → List String
  | [] => []
  | s :: rest => s.display :: displayStmts rest
def displayFunctions : List Function → List String
  | [] => []
  | f :: rest => f.display :: displayFunctions rest
end

/-- The text of a program. -/
def displayProgram (program : List Stmt) : String := list (displayStmts program)

end LoxLang
