import LoxLang.Tree

/-!
# Well-formed trees

Trees as they are read from text (`Stmt.WellFormed`, `Expr.WellFormed`). Nothing is missing in an
expression, operators are ones that the machine knows, no declaration stands directly under an `if`
or a `while`, names are identifiers and not keywords (`IsIdentifier`), and no reference is resolved
yet.
-/

namespace LoxLang

/-- A word that is no keyword. -/
def IsIdentifier (word : String) : Prop := TokenKind.ofWord word = .identifier

instance (word : String) : Decidable (IsIdentifier word) :=
  inferInstanceAs (Decidable (TokenKind.ofWord word = .identifier))

theorem IsIdentifier.ne_this (h : IsIdentifier x) : x ≠ "this" := by
  rintro rfl; exact absurd h (by decide)

theorem IsIdentifier.ne_super (h : IsIdentifier x) : x ≠ "super" := by
  rintro rfl; exact absurd h (by decide)

namespace TokenKind

/-- The kinds of words: identifiers and keywords. -/
def isWord : TokenKind → Bool
  | identifier | kwAnd | kwClass | kwElse | kwFalse | kwFun | kwFor | kwIf | kwNil | kwOr | kwPrint
  | kwReturn | kwSuper | kwThis | kwTrue | kwVar | kwWhile => true
  | _ => false

/-- The operators that have two operands and always evaluate both. -/
def isBinary : TokenKind → Bool
  | bangEqual | equalEqual | greater | greaterEqual | less | lessEqual | minus | plus | slash
  | star => true
  | _ => false

def isUnary : TokenKind → Bool
  | bang | minus => true
  | _ => false

end TokenKind

/-- A token with the kind of a word is spelled as that kind of word. -/
def Token.Spelled (t : Token) : Prop := t.kind.isWord → TokenKind.ofWord t.lexeme = t.kind

theorem Token.Spelled.isIdentifier {t : Token} (h : t.Spelled) (hk : t.kind = .identifier) :
    IsIdentifier t.lexeme := by
  rw [IsIdentifier, h (by rw [hk]; rfl), hk]

theorem TokenKind.ofWord_eq_this {w : String} (h : TokenKind.ofWord w = .kwThis) : w = "this" := by
  unfold TokenKind.ofWord at h
  split at h <;> first | rfl | cases h

theorem TokenKind.ofWord_eq_super {w : String} (h : TokenKind.ofWord w = .kwSuper) :
    w = "super" := by
  unfold TokenKind.ofWord at h
  split at h <;> first | rfl | cases h

theorem Token.Spelled.lexeme_this {t : Token} (h : t.Spelled) (hk : t.kind = .kwThis) :
    t.lexeme = "this" :=
  TokenKind.ofWord_eq_this ((h (by rw [hk]; rfl)).trans hk)

theorem Token.Spelled.lexeme_super {t : Token} (h : t.Spelled) (hk : t.kind = .kwSuper) :
    t.lexeme = "super" :=
  TokenKind.ofWord_eq_super ((h (by rw [hk]; rfl)).trans hk)

/-- A use of a variable whose number of scopes is not known yet. -/
structure Reference.Unresolved (r : Reference) : Prop where
  hops : r.hops = none
  name : IsIdentifier r.name.lexeme

/-- A `this` or `super` whose number of scopes is not known yet. -/
structure Reference.Keyword (word : String) (r : Reference) : Prop where
  hops : r.hops = none
  name : r.name.lexeme = word

mutual
def Expr.WellFormed : Expr → Prop
  | .missing => False
  | .assign target value => target.Unresolved ∧ value.WellFormed
  | .binary left operator right =>
    left.WellFormed ∧ operator.kind.isBinary ∧ right.WellFormed
  | .call callee _ arguments => callee.WellFormed ∧ WellFormedExprs arguments
  | .get object _ => object.WellFormed
  | .grouping inner => inner.WellFormed
  | .literal _ => True
  | .logical left _ right => left.WellFormed ∧ right.WellFormed
  | .set object _ value => object.WellFormed ∧ value.WellFormed
  | .super keyword _ => keyword.Keyword "super"
  | .this keyword => keyword.Keyword "this"
  | .unary operator right => operator.kind.isUnary ∧ right.WellFormed
  | .variable target => target.Unresolved
def WellFormedExprs : List Expr → Prop
  | [] => True
  | e :: rest => e.WellFormed ∧ WellFormedExprs rest
end

def Expr.WellFormedOption : Option Expr → Prop
  | none => True
  | some e => e.WellFormed

/-- The names that a statement declares in the scope it stands in. -/
def Stmt.declared : Stmt → List Token
  | .classDecl name _ _ => [name]
  | .function f => [f.name]
  | .ifElse _ thenBranch elseBranch => thenBranch.declared ++ elseBranch.declared
  | .varDecl name _ => [name]
  | .whileLoop _ body => body.declared
  | _ => []

/-- The names that statements declare in the scope they stand in. -/
def declaredNames (ss : List Stmt) : List Token := ss.flatMap Stmt.declared

@[simp] theorem declaredNames_nil : declaredNames [] = [] := rfl

@[simp] theorem declaredNames_cons (s : Stmt) (ss : List Stmt) :
    declaredNames (s :: ss) = s.declared ++ declaredNames ss := rfl

mutual
def Stmt.WellFormed : Stmt → Prop
  | .missing => True
  | .block body => WellFormedStmts body
  | .classDecl name superclass methods =>
    IsIdentifier name.lexeme ∧ (∀ r ∈ superclass, r.Unresolved) ∧ WellFormedFunctions methods
  | .expression value => value.WellFormed
  | .function f => f.WellFormed
  | .ifElse condition thenBranch elseBranch =>
    condition.WellFormed ∧ (thenBranch.WellFormed ∧ thenBranch.declared = []) ∧
      elseBranch.WellFormed ∧ elseBranch.declared = []
  | .print value => value.WellFormed
  | .returning _ value => Expr.WellFormedOption value
  | .varDecl name initializer => IsIdentifier name.lexeme ∧ Expr.WellFormedOption initializer
  | .whileLoop condition body => condition.WellFormed ∧ body.WellFormed ∧ body.declared = []
def Function.WellFormed : Function → Prop
  | .mk name parameters body =>
    IsIdentifier name.lexeme ∧ (∀ p ∈ parameters, IsIdentifier p.lexeme) ∧ WellFormedStmts body
def WellFormedStmts : List Stmt → Prop
  | [] => True
  | s :: rest => s.WellFormed ∧ WellFormedStmts rest
def WellFormedFunctions : List Function → Prop
  | [] => True
  | f :: rest => f.WellFormed ∧ WellFormedFunctions rest
end

theorem wellFormedExprs_iff {es : List Expr} :
    WellFormedExprs es ↔ ∀ e ∈ es, e.WellFormed := by
  induction es with
  | nil => simp [WellFormedExprs]
  | cons e es ih => simp [WellFormedExprs, ih]

theorem wellFormedStmts_iff {ss : List Stmt} :
    WellFormedStmts ss ↔ ∀ s ∈ ss, s.WellFormed := by
  induction ss with
  | nil => simp [WellFormedStmts]
  | cons s ss ih => simp [WellFormedStmts, ih]

theorem wellFormedFunctions_iff {fs : List Function} :
    WellFormedFunctions fs ↔ ∀ f ∈ fs, f.WellFormed := by
  induction fs with
  | nil => simp [WellFormedFunctions]
  | cons f fs ih => simp [WellFormedFunctions, ih]

/-- What a well-formed statement declares is named by identifiers. -/
theorem Stmt.WellFormed.declared {s : Stmt} (h : s.WellFormed) :
    ∀ t ∈ s.declared, IsIdentifier t.lexeme := by
  cases s with
  | classDecl name superclass methods => simpa [Stmt.declared] using h.1
  | varDecl name initializer => simpa [Stmt.declared] using h.1
  | function f =>
    cases f with
    | mk name parameters body => simpa [Stmt.declared, Function.name] using h.1
  | ifElse condition thenBranch elseBranch =>
    simp [Stmt.declared, h.2.1.2, h.2.2.2]
  | whileLoop condition body => simp [Stmt.declared, h.2.2]
  | _ => simp [Stmt.declared]

end LoxLang
