import LoxLang.Proofs.Scopes
import LoxLang.Tree.References

/-!
# Sites

A `Site` is what the resolver knows when it comes to a node: what encloses the node and the scopes
around it, each with the piece of the program that it belongs to (`Region`). Walking over one node,
the resolver asks for others, each at a site of its own (`Asks`, `Visited`); `Fits` says what holds
of every node at its site when the walk finds no violation.
-/

namespace LoxLang

/-- A piece of a resolved program with a scope of its own. Running it makes a frame. -/
inductive Region where
  | globals
  | block (body : List Stmt)
  /-- The parameters and the body of a function. -/
  | call (f : Function)
  /-- The scope of `this` around a method. -/
  | receiver (method : Function)
  /-- The scope of `super` around the methods of a class. -/
  | superclass (name : Token) (methods : List Function)

namespace Region

/-- The declarations in a region. -/
def declared : Region → List Token
  | block body => declaredNames body
  | call f => f.parameters ++ declaredNames f.body
  | _ => []

/-- The names that a region binds. -/
def names : Region → List String
  | receiver _ => ["this"]
  | superclass _ _ => ["super"]
  | ρ => ρ.declared.map Token.lexeme

/-- The declarations of a region have different names, and no name is a keyword. -/
structure Distinct (ρ : Region) : Prop where
  identifiers : ∀ t ∈ ρ.declared, IsIdentifier t.lexeme
  nodup : (ρ.declared.map Token.lexeme).Nodup

end Region

structure Site where
  around : Enclosing
  scopes : List Scope
  /-- The piece of the program that each scope belongs to. -/
  regions : List Region
  /-- The name of a class while its superclass is looked up: declared, but not bound yet. -/
  pending : Option String

namespace Site

def topLevel : Site := ⟨.topLevel, [], [], none⟩

variable (σ : Site)

/-! What the resolver makes of a node at a site. -/

def expr (e : Expr) : Expr := (e.resolve σ.around σ.scopes).1

def exprs (es : List Expr) : List Expr := (resolveExprs σ.around σ.scopes es).1

def stmt (s : Stmt) : Stmt := (s.resolve σ.around σ.scopes).tree

def stmts (ss : List Stmt) : List Stmt := (resolveStmts σ.around σ.scopes ss).tree

def function (f : Function) : Function := (f.resolve σ.around σ.scopes).1

def methods (fs : List Function) : List Function := (resolveMethods σ.around σ.scopes fs).1

/-! The sites that the resolver goes on to. -/

/-- The site with a name declared that may be read. -/
def introduce (name : Token) : Site := { σ with scopes := Scope.introduce name σ.scopes }

/-- The site of the initializer of a variable. -/
def inInitializer (name : Token) : Site :=
  { σ with scopes := Scope.declare name.lexeme σ.scopes }

/-- The site behind a statement. -/
def after (s : Stmt) : Site := { σ with scopes := (s.resolve σ.around σ.scopes).scopes }

/-- The site behind some statements. -/
def afterAll (ss : List Stmt) : Site :=
  { σ with scopes := (resolveStmts σ.around σ.scopes ss).scopes }

/-- The site with one more scope. -/
def enter (scope : Scope) (ρ : Region) : Site :=
  { σ with scopes := scope :: σ.scopes, regions := ρ :: σ.regions }

/-- The site of the statements of a block. -/
def inBlock (body : List Stmt) : Site :=
  σ.enter [] (.block (resolveStmts σ.around ([] :: σ.scopes) body).tree)

/-- The site of a function's declaration. -/
def inFunction (name : Token) : Site :=
  { σ.introduce name with around := ⟨some .plain, σ.around.classKind⟩ }

/-- The site of the superclass of a class. -/
def inSuperclass (name : Token) : Site := { σ.introduce name with pending := some name.lexeme }

/-- The site of the methods of a class. -/
def inClass (name : Token) (hasSuperclass : Bool) : Site :=
  { σ with
    around := ⟨σ.around.function, some (if hasSuperclass then .derived else .base)⟩
    scopes := Scope.aroundMethods hasSuperclass (Scope.introduce name σ.scopes) }

/-- The site of one method. -/
def inMethod (name : Token) (hasSuperclass : Bool) (methods : List Function)
    (f : Function) : Site :=
  let inner := σ.inClass name hasSuperclass
  let inner :=
    { inner with around := ⟨some (.ofMethod f.name.lexeme), inner.around.classKind⟩ }
  let outer :=
    if hasSuperclass then
      .superclass name ((σ.inClass name hasSuperclass).methods methods) :: σ.regions
    else σ.regions
  { inner with regions := .receiver (inner.function f) :: outer }

/-- The site of the body of a function. -/
def inBody (f : Function) : Site :=
  { σ with
    scopes := Scope.introduceEach f.parameters ([] :: σ.scopes)
    regions := .call (σ.function f) :: σ.regions }

/-! What the resolver makes of a node, by what it makes of the parts. -/

attribute [local simp] Expr.resolve Expr.resolveOption resolveExprs Stmt.resolve resolveStmts

@[simp] theorem expr_assign (r : Reference) (e : Expr) :
    σ.expr (.assign r e) = .assign (r.resolve σ.scopes) (σ.expr e) := by
  simp [expr]

@[simp] theorem expr_binary (l : Expr) (op : Token) (r : Expr) :
    σ.expr (.binary l op r) = .binary (σ.expr l) op (σ.expr r) := by
  simp [expr]

@[simp] theorem expr_call (f : Expr) (paren : Token) (es : List Expr) :
    σ.expr (.call f paren es) = .call (σ.expr f) paren (σ.exprs es) := by
  simp [expr, exprs]

@[simp] theorem expr_get (e : Expr) (name : Token) :
    σ.expr (.get e name) = .get (σ.expr e) name := by
  simp [expr]

@[simp] theorem expr_grouping (e : Expr) : σ.expr (.grouping e) = .grouping (σ.expr e) := by
  simp [expr]

@[simp] theorem expr_literal (c : Constant) : σ.expr (.literal c) = .literal c := by
  simp [expr]

@[simp] theorem expr_logical (l : Expr) (op : Token) (r : Expr) :
    σ.expr (.logical l op r) = .logical (σ.expr l) op (σ.expr r) := by
  simp [expr]

@[simp] theorem expr_set (e : Expr) (name : Token) (v : Expr) :
    σ.expr (.set e name v) = .set (σ.expr e) name (σ.expr v) := by
  simp [expr]

@[simp] theorem expr_super (k : Reference) (method : Token) :
    σ.expr (.super k method) = .super (k.resolve σ.scopes) method := by
  simp [expr]

@[simp] theorem expr_unary (op : Token) (e : Expr) :
    σ.expr (.unary op e) = .unary op (σ.expr e) := by
  simp [expr]

@[simp] theorem expr_variable (r : Reference) :
    σ.expr (.variable r) = .variable (r.resolve σ.scopes) := by
  simp [expr]

@[simp] theorem exprs_nil : σ.exprs [] = [] := rfl

@[simp] theorem exprs_cons (e : Expr) (es : List Expr) :
    σ.exprs (e :: es) = σ.expr e :: σ.exprs es := by
  simp [expr, exprs]

@[simp] theorem stmt_missing : σ.stmt .missing = .missing := by
  simp [stmt]

@[simp] theorem stmt_block (ss : List Stmt) :
    σ.stmt (.block ss) = .block ((σ.inBlock ss).stmts ss) := by
  simp only [stmt, Stmt.resolve]; rfl

@[simp] theorem stmt_classDecl (name : Token) (r : Option Reference) (fs : List Function) :
    σ.stmt (.classDecl name r fs) =
      .classDecl name (r.map (·.resolve (Scope.introduce name σ.scopes)))
        ((σ.inClass name r.isSome).methods fs) := by
  simp only [stmt, Stmt.resolve, Option.map_map]; rfl

@[simp] theorem stmt_expression (e : Expr) : σ.stmt (.expression e) = .expression (σ.expr e) := by
  simp [expr, stmt]

@[simp] theorem stmt_function (f : Function) :
    σ.stmt (.function f) = .function ((σ.inFunction f.name).function f) := by
  simp only [stmt, Stmt.resolve]; rfl

@[simp] theorem stmt_ifElse (c : Expr) (t e : Stmt) :
    σ.stmt (.ifElse c t e) = .ifElse (σ.expr c) (σ.stmt t) ((σ.after t).stmt e) := by
  simp [expr, stmt, after]

@[simp] theorem stmt_print (e : Expr) : σ.stmt (.print e) = .print (σ.expr e) := by
  simp [expr, stmt]

@[simp] theorem stmt_returning_none (k : Token) :
    σ.stmt (.returning k none) = .returning k none := by
  simp [stmt]

@[simp] theorem stmt_returning_some (k : Token) (e : Expr) :
    σ.stmt (.returning k (some e)) = .returning k (some (σ.expr e)) := by
  simp [expr, stmt]

@[simp] theorem stmt_varDecl_none (name : Token) :
    σ.stmt (.varDecl name none) = .varDecl name none := by
  simp [stmt]

@[simp] theorem stmt_varDecl_some (name : Token) (e : Expr) :
    σ.stmt (.varDecl name (some e)) = .varDecl name (some ((σ.inInitializer name).expr e)) := by
  simp [expr, stmt, inInitializer]

@[simp] theorem stmt_whileLoop (c : Expr) (b : Stmt) :
    σ.stmt (.whileLoop c b) = .whileLoop (σ.expr c) (σ.stmt b) := by
  simp [expr, stmt]

@[simp] theorem stmts_nil : σ.stmts [] = [] := rfl

@[simp] theorem stmts_cons (s : Stmt) (ss : List Stmt) :
    σ.stmts (s :: ss) = σ.stmt s :: (σ.after s).stmts ss := by
  simp [stmt, stmts, after]

theorem function_mk (name : Token) (ps : List Token) (ss : List Stmt) :
    σ.function (.mk name ps ss) = .mk name ps ((σ.inBody (.mk name ps ss)).stmts ss) := by
  simp only [function, Function.resolve, Scope.introduceAll_fst]
  rfl

@[simp] theorem name_function (f : Function) : (σ.function f).name = f.name := by
  obtain ⟨name, ps, ss⟩ := f
  rw [function_mk]
  rfl

end Site

/-- The nodes that the resolver walks over. -/
inductive Node where
  | expr (e : Expr)
  | exprs (es : List Expr)
  | stmt (s : Stmt)
  | stmts (ss : List Stmt)
  | function (f : Function)

/-- The walk over a node at a site asks for another node at its site. -/
inductive Asks : Node → Site → Node → Site → Prop where
  | assignValue : Asks (.expr (.assign r e)) σ (.expr e) σ
  | binaryLeft : Asks (.expr (.binary l op r)) σ (.expr l) σ
  | binaryRight : Asks (.expr (.binary l op r)) σ (.expr r) σ
  | callee : Asks (.expr (.call f paren es)) σ (.expr f) σ
  | arguments : Asks (.expr (.call f paren es)) σ (.exprs es) σ
  | getObject : Asks (.expr (.get e name)) σ (.expr e) σ
  | grouping : Asks (.expr (.grouping e)) σ (.expr e) σ
  | logicalLeft : Asks (.expr (.logical l op r)) σ (.expr l) σ
  | logicalRight : Asks (.expr (.logical l op r)) σ (.expr r) σ
  | setObject : Asks (.expr (.set e name v)) σ (.expr e) σ
  | setValue : Asks (.expr (.set e name v)) σ (.expr v) σ
  | operand : Asks (.expr (.unary op e)) σ (.expr e) σ
  | firstExpr : Asks (.exprs (e :: es)) σ (.expr e) σ
  | otherExprs : Asks (.exprs (e :: es)) σ (.exprs es) σ
  | block : Asks (.stmt (.block ss)) σ (.stmts ss) (σ.inBlock ss)
  | superclass : Asks (.stmt (.classDecl name (some r) fs)) σ (.expr (.variable r))
      (σ.inSuperclass name)
  | method (h : f ∈ fs) : Asks (.stmt (.classDecl name r fs)) σ (.function f)
      (σ.inMethod name r.isSome fs f)
  | expression : Asks (.stmt (.expression e)) σ (.expr e) σ
  | function : Asks (.stmt (.function f)) σ (.function f) (σ.inFunction f.name)
  | ifCondition : Asks (.stmt (.ifElse c t e)) σ (.expr c) σ
  | thenBranch : Asks (.stmt (.ifElse c t e)) σ (.stmt t) σ
  | elseBranch : Asks (.stmt (.ifElse c t e)) σ (.stmt e) (σ.after t)
  | print : Asks (.stmt (.print e)) σ (.expr e) σ
  | returnValue : Asks (.stmt (.returning k (some e))) σ (.expr e) σ
  | initializer : Asks (.stmt (.varDecl name (some e))) σ (.expr e) (σ.inInitializer name)
  | whileCondition : Asks (.stmt (.whileLoop c b)) σ (.expr c) σ
  | whileBody : Asks (.stmt (.whileLoop c b)) σ (.stmt b) σ
  | firstStmt : Asks (.stmts (s :: ss)) σ (.stmt s) σ
  | otherStmts : Asks (.stmts (s :: ss)) σ (.stmts ss) (σ.after s)
  | body : Asks (.function (.mk name ps ss)) σ (.stmts ss) (σ.inBody (.mk name ps ss))

/-- What is walked over when a walk starts at one of some roots, at the top level. -/
inductive Visited (roots : Node → Prop) : Node → Site → Prop where
  | root : roots n → Visited roots n .topLevel
  | asks : Visited roots n σ → Asks n σ n' σ' → Visited roots n' σ'

/-- The scopes around a point, with their regions: around a method stands the scope of `this`, with
the scope of `super` around it in a class with a superclass. -/
inductive Layers : Option ClassKind → List Scope → List Region → Prop where
  | globals : Layers none [] []
  | inner : Layers k Γ ρs → (∀ x, scope.contains x → ∃ t ∈ ρ.declared, t.lexeme = x) →
      ρ.Distinct → Layers k (scope :: Γ) (ρ :: ρs)
  | base : Layers k Γ ρs → Layers (some .base) ([("this", true)] :: Γ) (.receiver f :: ρs)
  | derived : Layers k Γ ρs → Layers (some .derived)
      ([("this", true)] :: [("super", true)] :: Γ) (.receiver f :: .superclass name fs :: ρs)

namespace Node

def WellFormed : Node → Prop
  | expr e => e.WellFormed
  | exprs es => WellFormedExprs es
  | stmt s => s.WellFormed
  | stmts ss => WellFormedStmts ss
  | function f => f.WellFormed

/-- The references of a node in order. -/
def references : Node → List (ReferenceKind × Reference)
  | expr e => e.references
  | exprs es => exprReferences es
  | stmt s => s.references
  | stmts ss => stmtReferences ss
  | function f => f.references

def isVariable : Node → Bool
  | expr (.variable _) => true
  | _ => false

/-- The violations found in a node at a site. -/
def findings (σ : Site) : Node → List Finding
  | expr e => (e.resolve σ.around σ.scopes).2
  | exprs es => (resolveExprs σ.around σ.scopes es).2
  | stmt s => (s.resolve σ.around σ.scopes).findings
  | stmts ss => (resolveStmts σ.around σ.scopes ss).findings
  | function f => (f.resolve σ.around σ.scopes).2

/-- What a node declares in the scope it stands in. -/
def declared : Node → List Token
  | stmt s => s.declared
  | stmts ss => declaredNames ss
  | _ => []

/-- The scopes of which all names may be read: in an expression all but the innermost. -/
def readyScopes (σ : Site) : Node → List Scope
  | expr _ | exprs _ => σ.scopes.tail
  | _ => σ.scopes

end Node

/-- What holds of a node at its site when no violation is found in it. -/
structure Fits (n : Node) (σ : Site) : Prop where
  wellFormed : n.WellFormed
  findings : n.findings σ = []
  layers : Layers σ.around.classKind σ.scopes σ.regions
  ready : ∀ scope ∈ n.readyScopes σ, scope.Ready
  declared : ∀ ρ ∈ σ.regions.head?, ∀ t ∈ n.declared, t ∈ ρ.declared
  pending : ∀ x ∈ σ.pending, ∃ r, n = .expr (.variable r) ∧ r.name.lexeme ≠ x

end LoxLang
