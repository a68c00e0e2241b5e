import LoxLang.Tree

/-!
# References of a tree

The references of a tree in the order of its text (`stmtReferences`): a node comes before what it
holds, and its fields follow one another as the tree lists them. An assignment is a reference too,
to its target (`ReferenceKind`).
-/

namespace LoxLang

/-- The kinds of nodes that refer to a name. -/
inductive ReferenceKind where
  | assign | super | this | variable
deriving DecidableEq

mutual
def Expr.references : Expr → List (ReferenceKind × Reference)
  | .missing => []
  | .assign target value => (.assign, target) :: value.references
  | .binary left _ right => left.references ++ right.references
  | .call callee _ arguments => callee.references ++ exprReferences arguments
  | .get object _ => object.references
  | .grouping inner => inner.references
  | .literal _ => []
  | .logical left _ right => left.references ++ right.references
  | .set object _ value => object.references ++ value.references
  | .super keyword _ => [(.super, keyword)]
  | .this keyword => [(.this, keyword)]
  | .unary _ right => right.references
  | .variable target => [(.variable, target)]
def exprReferences : List Expr → List (ReferenceKind × Reference)
  | [] => []
  | e :: rest => e.references ++ exprReferences rest
end

def Expr.optionReferences : Option Expr → List (ReferenceKind × Reference)
  | none => []
  | some e => e.references

mutual
def Stmt.references : Stmt → List (ReferenceKind × Reference)
  | .missing => []
  | .block body => stmtReferences body
  | .classDecl _ superclass methods =>
    (superclass.toList.map fun r => (.variable, r)) ++ functionReferences methods
  | .expression value => value.references
  | .function f => f.references
  | .ifElse condition thenBranch elseBranch =>
    condition.references ++ thenBranch.references ++ elseBranch.references
  | .print value => value.references
  | .returning _ value => Expr.optionReferences value
  | .varDecl _ initializer => Expr.optionReferences initializer
  | .whileLoop condition body => condition.references ++ body.references
def Function.references : Function → List (ReferenceKind × Reference)
  | .mk _ _ body => stmtReferences body
def stmtReferences : List Stmt → List (ReferenceKind × Reference)
  | [] => []
  | s :: rest => s.references ++ stmtReferences rest
def functionReferences : List Function → List (ReferenceKind × Reference)
  | [] => []
  | f :: rest => f.references ++ functionReferences rest
end

end LoxLang
