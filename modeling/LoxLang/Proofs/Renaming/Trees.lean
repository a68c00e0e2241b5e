import LoxLang.Proofs.Sites
import LoxLang.Tree.References

/-!
# Renaming a local variable

In a resolved tree, the uses of a variable are the references that have as many hops as there are
scopes between them and the scope of the declaration. The name of the declaration changes together
with them, and everything else stays (`Renaming`, `RenamesLocal`).
-/

namespace LoxLang

/-- A name that is to become another one. -/
structure Renaming where
  old : String
  new : String
  old_identifier : IsIdentifier old
  new_identifier : IsIdentifier new

variable (φ : Renaming)

/-- What becomes of a name in the scope of the declaration, or of one that is bound there. -/
def Renaming.name (bound : Bool) (x : String) : String :=
  if bound ∧ x = φ.old then φ.new else x

/-- A token with its name changed; its place is the same. -/
def Token.rename (bound : Bool) (t : Token) : Token := { t with lexeme := φ.name bound t.lexeme }

/-! A node stands some number of scopes inside the scope of the declaration (`some 0` is that scope
itself), or it stands outside of it, where nothing is renamed. -/

/-- A reference is bound to the scope of the declaration if it has as many hops as there are scopes
between. -/
def Reference.rename (inside : Option Nat) (r : Reference) : Reference :=
  { r with name := r.name.rename φ (inside.isSome ∧ r.hops = inside) }

mutual
def Expr.rename (inside : Option Nat) : Expr → Expr
  | .missing => .missing
  | .assign target value => .assign (target.rename φ inside) (value.rename inside)
  | .binary left op right => .binary (left.rename inside) op (right.rename inside)
  | .call callee paren arguments =>
    .call (callee.rename inside) paren (renameExprs inside arguments)
  | .get object name => .get (object.rename inside) name
  | .grouping inner => .grouping (inner.rename inside)
  | .literal value => .literal value
  | .logical left op right => .logical (left.rename inside) op (right.rename inside)
  | .set object name value => .set (object.rename inside) name (value.rename inside)
  | .super keyword method => .super keyword method
  | .this keyword => .this keyword
  | .unary op right => .unary op (right.rename inside)
  | .variable target => .variable (target.rename φ inside)
def renameExprs (inside : Option Nat) : List Expr → List Expr
  | [] => []
  | e :: rest => e.rename inside :: renameExprs inside rest
end

/-- How far inside a node is that stands in so many more scopes. -/
def deeper (scopes : Nat) (inside : Option Nat) : Option Nat := inside.map (· + scopes)

mutual
def Stmt.rename (inside : Option Nat) : Stmt → Stmt
  | .missing => .missing
  | .block body => .block (renameStmts (deeper 1 inside) body)
  | .classDecl name superclass methods =>
    .classDecl name (superclass.map (·.rename φ inside))
      (renameMethods (deeper (if superclass.isSome then 2 else 1) inside) methods)
  | .expression value => .expression (value.rename φ inside)
  | .function f => .function (f.rename inside)
  | .ifElse condition thenBranch elseBranch =>
    .ifElse (condition.rename φ inside) (thenBranch.rename inside) (elseBranch.rename inside)
  | .print value => .print (value.rename φ inside)
  | .returning keyword value => .returning keyword (value.map (·.rename φ inside))
  | .varDecl name initializer =>
    .varDecl (name.rename φ (inside = some 0)) (initializer.map (·.rename φ inside))
  | .whileLoop condition body => .whileLoop (condition.rename φ inside) (body.rename inside)
def Function.rename (inside : Option Nat) : Function → Function
  | .mk name parameters body => .mk name parameters (renameStmts (deeper 1 inside) body)
def renameMethods (inside : Option Nat) : List Function → List Function
  | [] => []
  | f :: rest => f.rename inside :: renameMethods inside rest
def renameStmts (inside : Option Nat) : List Stmt → List Stmt
  | [] => []
  | s :: rest => s.rename inside :: renameStmts inside rest
end

/-- The variables that a statement declares in the scope it stands in. -/
def Stmt.variables : Stmt → List Token
  | .ifElse _ thenBranch elseBranch => thenBranch.variables ++ elseBranch.variables
  | .varDecl name _ => [name]
  | .whileLoop _ body => body.variables
  | _ => []

/-- A declaration `D` of a variable or a parameter is renamed in its scope, which is one of the
scopes of a tree, with all that is bound to it. -/
inductive RenamesLocal (D : Token) : Node → Node → Prop where
  | variable : D ∈ ss.flatMap Stmt.variables → D.lexeme = φ.old →
      RenamesLocal D (.stmt (.block ss)) (.stmt (.block (renameStmts φ (some 0) ss)))
  | parameter : D ∈ ps ++ ss.flatMap Stmt.variables → D.lexeme = φ.old →
      RenamesLocal D (.function (.mk name ps ss))
        (.function (.mk name (ps.map (·.rename φ true)) (renameStmts φ (some 0) ss)))
  | block : RenamesLocal D (.stmts ss) (.stmts ss') →
      RenamesLocal D (.stmt (.block ss)) (.stmt (.block ss'))
  | body : RenamesLocal D (.stmts ss) (.stmts ss') →
      RenamesLocal D (.function (.mk name ps ss)) (.function (.mk name ps ss'))
  | function : RenamesLocal D (.function f) (.function f') →
      RenamesLocal D (.stmt (.function f)) (.stmt (.function f'))
  | method : RenamesLocal D (.function f) (.function f') →
      RenamesLocal D (.stmt (.classDecl name superclass (fs ++ f :: gs)))
        (.stmt (.classDecl name superclass (fs ++ f' :: gs)))
  | thenBranch : RenamesLocal D (.stmt t) (.stmt t') →
      RenamesLocal D (.stmt (.ifElse c t e)) (.stmt (.ifElse c t' e))
  | elseBranch : RenamesLocal D (.stmt e) (.stmt e') →
      RenamesLocal D (.stmt (.ifElse c t e)) (.stmt (.ifElse c t e'))
  | whileBody : RenamesLocal D (.stmt b) (.stmt b') →
      RenamesLocal D (.stmt (.whileLoop c b)) (.stmt (.whileLoop c b'))
  | head : RenamesLocal D (.stmt s) (.stmt s') →
      RenamesLocal D (.stmts (s :: ss)) (.stmts (s' :: ss))
  | tail : RenamesLocal D (.stmts ss) (.stmts ss') →
      RenamesLocal D (.stmts (s :: ss)) (.stmts (s :: ss'))

/-! The tree as it is before it is resolved. -/

def Reference.bare (r : Reference) : Reference := { r with hops := none }

mutual
def Expr.bare : Expr → Expr
  | .missing => .missing
  | .assign target value => .assign target.bare value.bare
  | .binary left op right => .binary left.bare op right.bare
  | .call callee paren arguments => .call callee.bare paren (bareExprs arguments)
  | .get object name => .get object.bare name
  | .grouping inner => .grouping inner.bare
  | .literal value => .literal value
  | .logical left op right => .logical left.bare op right.bare
  | .set object name value => .set object.bare name value.bare
  | .super keyword method => .super keyword.bare method
  | .this keyword => .this keyword.bare
  | .unary op right => .unary op right.bare
  | .variable target => .variable target.bare
def bareExprs : List Expr → List Expr
  | [] => []
  | e :: rest => e.bare :: bareExprs rest
end

mutual
def Stmt.bare : Stmt → Stmt
  | .missing => .missing
  | .block body => .block (bareStmts body)
  | .classDecl name superclass methods =>
    .classDecl name (superclass.map Reference.bare) (bareMethods methods)
  | .expression value => .expression value.bare
  | .function f => .function f.bare
  | .ifElse condition thenBranch elseBranch =>
    .ifElse condition.bare thenBranch.bare elseBranch.bare
  | .print value => .print value.bare
  | .returning keyword value => .returning keyword (value.map Expr.bare)
  | .varDecl name initializer => .varDecl name (initializer.map Expr.bare)
  | .whileLoop condition body => .whileLoop condition.bare body.bare
def Function.bare : Function → Function
  | .mk name parameters body => .mk name parameters (bareStmts body)
def bareMethods : List Function → List Function
  | [] => []
  | f :: rest => f.bare :: bareMethods rest
def bareStmts : List Stmt → List Stmt
  | [] => []
  | s :: rest => s.bare :: bareStmts rest
end

end LoxLang
