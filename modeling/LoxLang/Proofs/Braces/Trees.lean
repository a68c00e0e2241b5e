import LoxLang.Proofs.Renaming.Scopes

/-!
# Trees with added braces

Braces around one statement of a program (`Stmt.Braces`). In the resolved tree (`Stmt.LiftBraces`)
the block adds a scope around the statement, so every reference in the statement that is bound
outside of it has one more hop (`Stmt.lift`), and the others have the hops that they had.
-/

namespace LoxLang

/-! A node stands some number of scopes inside the braces (`some 0` is directly inside of them), or
it does not stand inside of them, and there no reference changes. -/

/-- The hops of a reference once the braces are there. -/
def liftHops : Option Nat → Nat → Nat
  | none, d => d
  | some k, d => if k ≤ d then d + 1 else d

def Reference.lift (inside : Option Nat) (r : Reference) : Reference :=
  { r with hops := r.hops.map (liftHops inside) }

mutual
def Expr.lift (inside : Option Nat) : Expr → Expr
  | .missing => .missing
  | .assign target value => .assign (target.lift inside) (value.lift inside)
  | .binary left op right => .binary (left.lift inside) op (right.lift inside)
  | .call callee paren arguments => .call (callee.lift inside) paren (liftExprs inside arguments)
  | .get object name => .get (object.lift inside) name
  | .grouping inner => .grouping (inner.lift inside)
  | .literal value => .literal value
  | .logical left op right => .logical (left.lift inside) op (right.lift inside)
  | .set object name value => .set (object.lift inside) name (value.lift inside)
  | .super keyword method => .super (keyword.lift inside) method
  | .this keyword => .this (keyword.lift inside)
  | .unary op right => .unary op (right.lift inside)
  | .variable target => .variable (target.lift inside)
def liftExprs (inside : Option Nat) : List Expr → List Expr
  | [] => []
  | e :: rest => e.lift inside :: liftExprs inside rest
end

mutual
def Stmt.lift (inside : Option Nat) : Stmt → Stmt
  | .missing => .missing
  | .block body => .block (liftStmts (deeper 1 inside) body)
  | .classDecl name superclass methods =>
    .classDecl name (superclass.map (·.lift inside))
      (liftMethods (deeper (if superclass.isSome then 2 else 1) inside) methods)
  | .expression value => .expression (value.lift inside)
  | .function f => .function (f.lift inside)
  | .ifElse condition thenBranch elseBranch =>
    .ifElse (condition.lift inside) (thenBranch.lift inside) (elseBranch.lift inside)
  | .print value => .print (value.lift inside)
  | .returning keyword value => .returning keyword (value.map (·.lift inside))
  | .varDecl name initializer => .varDecl name (initializer.map (·.lift inside))
  | .whileLoop condition body => .whileLoop (condition.lift inside) (body.lift inside)
def Function.lift (inside : Option Nat) : Function → Function
  | .mk name parameters body => .mk name parameters (liftStmts (deeper 1 inside) body)
def liftMethods (inside : Option Nat) : List Function → List Function
  | [] => []
  | f :: rest => f.lift inside :: liftMethods inside rest
def liftStmts (inside : Option Nat) : List Stmt → List Stmt
  | [] => []
  | s :: rest => s.lift inside :: liftStmts inside rest
end

def Node.lift (inside : Option Nat) : Node → Node
  | .expr e => .expr (e.lift inside)
  | .exprs es => .exprs (liftExprs inside es)
  | .stmt s => .stmt (s.lift inside)
  | .stmts ss => .stmts (liftStmts inside ss)
  | .function f => .function (f.lift inside)

/-- One tree is another one with one of its statements replaced, at any depth; `R` tells by what. -/
inductive AtStatement (R : Stmt → Stmt → Prop) : Node → Node → Prop where
  | here : R s t → AtStatement R (.stmt s) (.stmt t)
  | block : AtStatement R (.stmts ss) (.stmts ts) →
      AtStatement R (.stmt (.block ss)) (.stmt (.block ts))
  | method : AtStatement R (.function f) (.function g) →
      AtStatement R (.stmt (.classDecl name superclass (fs ++ f :: gs)))
        (.stmt (.classDecl name superclass (fs ++ g :: gs)))
  | function : AtStatement R (.function f) (.function g) →
      AtStatement R (.stmt (.function f)) (.stmt (.function g))
  | thenBranch : AtStatement R (.stmt s) (.stmt t) →
      AtStatement R (.stmt (.ifElse c s e)) (.stmt (.ifElse c t e))
  | elseBranch : AtStatement R (.stmt s) (.stmt t) →
      AtStatement R (.stmt (.ifElse c b s)) (.stmt (.ifElse c b t))
  | whileBody : AtStatement R (.stmt s) (.stmt t) →
      AtStatement R (.stmt (.whileLoop c s)) (.stmt (.whileLoop c t))
  | body : AtStatement R (.stmts ss) (.stmts ts) →
      AtStatement R (.function (.mk name ps ss)) (.function (.mk name ps ts))
  | head : AtStatement R (.stmt s) (.stmt t) →
      AtStatement R (.stmts (s :: ss)) (.stmts (t :: ss))
  | tail : AtStatement R (.stmts ss) (.stmts ts) →
      AtStatement R (.stmts (s :: ss)) (.stmts (s :: ts))

/-- A statement that is there and is no declaration. -/
def Stmt.isPlain : Stmt → Bool
  | .missing | .classDecl .. | .function _ | .varDecl .. => false
  | _ => true

/-- A plain statement becomes a block that holds only the statement. -/
def Stmt.Braces (s t : Stmt) : Prop := s.isPlain ∧ t = .block [s]

/-- What `Stmt.Braces` comes to in resolved trees. -/
def Stmt.LiftBraces (s t : Stmt) : Prop := t = .block [s.lift (some 0)]

theorem AtStatement.imp {R R' : Stmt → Stmt → Prop} (hR : ∀ {s t}, R s t → R' s t)
    (h : AtStatement R n n') : AtStatement R' n n' := by
  induction h with
  | here h => exact .here (hR h)
  | block _ ih => exact .block ih
  | method _ ih => exact .method ih
  | function _ ih => exact .function ih
  | thenBranch _ ih => exact .thenBranch ih
  | elseBranch _ ih => exact .elseBranch ih
  | whileBody _ ih => exact .whileBody ih
  | body _ ih => exact .body ih
  | head _ ih => exact .head ih
  | tail _ ih => exact .tail ih

/-! ## Resolved nodes -/

namespace Braces

/-- A resolved node without the braces and with them. No declaration stands directly inside the
braces. No `super` is bound to the scope around them, which is never one that declares `super`. -/
inductive Braced : Option Nat → Node → Node → Prop where
  | noExpr : Braced o (.expr .missing) (.expr .missing)
  | assign : Braced o (.expr e) (.expr e') →
      Braced o (.expr (.assign r e)) (.expr (.assign (r.lift o) e'))
  | binary : Braced o (.expr l) (.expr l') → Braced o (.expr r) (.expr r') →
      Braced o (.expr (.binary l op r)) (.expr (.binary l' op r'))
  | call : Braced o (.expr f) (.expr f') → Braced o (.exprs es) (.exprs es') →
      Braced o (.expr (.call f paren es)) (.expr (.call f' paren es'))
  | get : Braced o (.expr e) (.expr e') → Braced o (.expr (.get e name)) (.expr (.get e' name))
  | grouping : Braced o (.expr e) (.expr e') →
      Braced o (.expr (.grouping e)) (.expr (.grouping e'))
  | literal : Braced o (.expr (.literal c)) (.expr (.literal c))
  | logical : Braced o (.expr l) (.expr l') → Braced o (.expr r) (.expr r') →
      Braced o (.expr (.logical l op r)) (.expr (.logical l' op r'))
  | set : Braced o (.expr e) (.expr e') → Braced o (.expr v) (.expr v') →
      Braced o (.expr (.set e name v)) (.expr (.set e' name v'))
  | super : (∀ k, o = some k → r.hops ≠ some k) →
      Braced o (.expr (.super r method)) (.expr (.super (r.lift o) method))
  | this : Braced o (.expr (.this r)) (.expr (.this (r.lift o)))
  | unary : Braced o (.expr e) (.expr e') →
      Braced o (.expr (.unary op e)) (.expr (.unary op e'))
  | variable : Braced o (.expr (.variable r)) (.expr (.variable (r.lift o)))
  | noExprs : Braced o (.exprs []) (.exprs [])
  | exprs : Braced o (.expr e) (.expr e') → Braced o (.exprs es) (.exprs es') →
      Braced o (.exprs (e :: es)) (.exprs (e' :: es'))
  | noStmt : Braced o (.stmt .missing) (.stmt .missing)
  | block : Braced (deeper 1 o) (.stmts ss) (.stmts ss') →
      Braced o (.stmt (.block ss)) (.stmt (.block ss'))
  | classDecl : o ≠ some 0 → fs.length = fs'.length →
      (∀ f f', (f, f') ∈ fs.zip fs' →
        Braced (deeper (if superclass.isSome then 2 else 1) o) (.function f) (.function f')) →
      Braced o (.stmt (.classDecl name superclass fs))
        (.stmt (.classDecl name (superclass.map (·.lift o)) fs'))
  | expression : Braced o (.expr e) (.expr e') →
      Braced o (.stmt (.expression e)) (.stmt (.expression e'))
  | function : o ≠ some 0 → Braced o (.function f) (.function f') →
      Braced o (.stmt (.function f)) (.stmt (.function f'))
  | ifElse : Braced o (.expr c) (.expr c') → Braced o (.stmt t) (.stmt t') →
      Braced o (.stmt e) (.stmt e') →
      Braced o (.stmt (.ifElse c t e)) (.stmt (.ifElse c' t' e'))
  | print : Braced o (.expr e) (.expr e') → Braced o (.stmt (.print e)) (.stmt (.print e'))
  | returnNil : Braced o (.stmt (.returning k none)) (.stmt (.returning k none))
  | returnValue : Braced o (.expr e) (.expr e') →
      Braced o (.stmt (.returning k (some e))) (.stmt (.returning k (some e')))
  | varNil : o ≠ some 0 → Braced o (.stmt (.varDecl name none)) (.stmt (.varDecl name none))
  | varValue : o ≠ some 0 → Braced o (.expr e) (.expr e') →
      Braced o (.stmt (.varDecl name (some e))) (.stmt (.varDecl name (some e')))
  | whileLoop : Braced o (.expr c) (.expr c') → Braced o (.stmt b) (.stmt b') →
      Braced o (.stmt (.whileLoop c b)) (.stmt (.whileLoop c' b'))
  | braces : Braced (some 0) (.stmt s) (.stmt s') → Braced none (.stmt s) (.stmt (.block [s']))
  | noStmts : Braced o (.stmts []) (.stmts [])
  | stmts : Braced o (.stmt s) (.stmt s') → Braced o (.stmts ss) (.stmts ss') →
      Braced o (.stmts (s :: ss)) (.stmts (s' :: ss'))
  | body : Braced (deeper 1 o) (.stmts ss) (.stmts ss') →
      Braced o (.function (.mk name ps ss)) (.function (.mk name ps ss'))

/-- A function keeps its name and its parameters. -/
theorem Braced.signature {f f' : Function} (hf : Braced o (.function f) (.function f')) :
    f'.name = f.name ∧ f'.parameters = f.parameters := by
  cases hf with
  | body => exact ⟨rfl, rfl⟩

/-! ## Inside the braces -/

theorem liftMethods_eq {fs fs' : List Function} (hlen : fs.length = fs'.length)
    (hfs : ∀ f f', (f, f') ∈ fs.zip fs' → f' = f.lift o) : fs' = liftMethods o fs := by
  induction fs generalizing fs' with
  | nil => exact List.length_eq_zero_iff.1 hlen.symm
  | cons f fs ih =>
    obtain ⟨f', fs', rfl⟩ := List.exists_cons_of_length_eq_add_one hlen.symm
    rw [liftMethods, ← hfs f f' (by simp),
      ← ih (Nat.succ.inj hlen) fun g g' hg => hfs g g' (by simp [hg])]

/-- Inside the braces there are no other braces, and all that changes is the hops. -/
theorem Braced.eq_lift (h : Braced o n n') (ho : o.isSome) : n' = n.lift o := by
  induction h with
  | braces => cases ho
  | block _ ih | body _ ih =>
    simpa [Node.lift, Stmt.lift, Function.lift] using ih (by simpa [deeper] using ho)
  | classDecl _ hlen _ ih =>
    have hfs := liftMethods_eq hlen fun f f' hf => by
      simpa [Node.lift] using ih f f' hf (by simpa [deeper] using ho)
    simp [Node.lift, Stmt.lift, hfs]
  | _ => simp_all [Node.lift, Expr.lift, liftExprs, Stmt.lift, liftStmts]

/-! ## Outside the braces -/

@[simp] theorem lift_none (r : Reference) : r.lift none = r := by
  obtain ⟨name, hops⟩ := r
  cases hops <;> rfl

mutual
theorem braced_expr : ∀ e : Expr, Braced none (.expr e) (.expr e)
  | .missing => .noExpr
  | .assign r e => by
    have h : Braced none (.expr (.assign r e)) _ := .assign (braced_expr e)
    rwa [lift_none] at h
  | .binary l _ r | .logical l _ r | .set l _ r => by
    constructor
    · exact braced_expr l
    · exact braced_expr r
  | .call f _ es => .call (braced_expr f) (braced_exprs es)
  | .get e _ => .get (braced_expr e)
  | .grouping e => .grouping (braced_expr e)
  | .literal _ => .literal
  | .super r method => by
    have h : Braced none (.expr (.super r method)) _ := .super nofun
    rwa [lift_none] at h
  | .this r => by
    have h : Braced none (.expr (.this r)) _ := .this
    rwa [lift_none] at h
  | .unary _ e => .unary (braced_expr e)
  | .variable r => by
    have h : Braced none (.expr (.variable r)) _ := .variable
    rwa [lift_none] at h
theorem braced_exprs : ∀ es : List Expr, Braced none (.exprs es) (.exprs es)
  | [] => .noExprs
  | e :: es => .exprs (braced_expr e) (braced_exprs es)
end

mutual
theorem braced_stmt : ∀ s : Stmt, Braced none (.stmt s) (.stmt s)
  | .missing => .noStmt
  | .block ss => .block (braced_stmts ss)
  | .classDecl name superclass fs => by
    have h : Braced none (.stmt (.classDecl name superclass fs)) _ :=
      .classDecl nofun rfl (braced_methods fs)
    simpa using h
  | .expression e => .expression (braced_expr e)
  | .function f => .function nofun (braced_function f)
  | .ifElse c t e => .ifElse (braced_expr c) (braced_stmt t) (braced_stmt e)
  | .print e => .print (braced_expr e)
  | .returning _ none => .returnNil
  | .returning _ (some e) => .returnValue (braced_expr e)
  | .varDecl _ none => .varNil nofun
  | .varDecl _ (some e) => .varValue nofun (braced_expr e)
  | .whileLoop c b => .whileLoop (braced_expr c) (braced_stmt b)
theorem braced_function : ∀ f : Function, Braced none (.function f) (.function f)
  | .mk _ _ ss => .body (braced_stmts ss)
theorem braced_methods : ∀ (fs : List Function) (f f' : Function), (f, f') ∈ fs.zip fs →
    Braced none (.function f) (.function f')
  | [], _, _, hf => nomatch hf
  | g :: fs, f, f', hf => by
    rcases List.mem_cons.1 hf with hf | hf
    · rw [(Prod.mk.inj hf).1, (Prod.mk.inj hf).2]
      exact braced_function g
    · exact braced_methods fs f f' hf
theorem braced_stmts : ∀ ss : List Stmt, Braced none (.stmts ss) (.stmts ss)
  | [] => .noStmts
  | s :: ss => .stmts (braced_stmt s) (braced_stmts ss)
end

/-- One statement in braces makes a program with braces. -/
theorem braced_of_atStatement
    (h : AtStatement (fun s t => Braced none (.stmt s) (.stmt t)) n n') : Braced none n n' := by
  induction h with
  | here h => exact h
  | block _ ih => exact .block ih
  | @method f g name superclass fs gs _ ih =>
    have hfs (f₁ f₂) (hf : (f₁, f₂) ∈ (fs ++ f :: gs).zip (fs ++ g :: gs)) :
        Braced none (.function f₁) (.function f₂) := by
      rw [List.zip_append rfl, List.mem_append, List.zip_cons_cons, List.mem_cons] at hf
      rcases hf with hf | hf | hf
      · exact braced_methods fs f₁ f₂ hf
      · cases hf
        exact ih
      · exact braced_methods gs f₁ f₂ hf
    have h : Braced none (.stmt (.classDecl name superclass (fs ++ f :: gs))) _ :=
      .classDecl nofun (by simp) hfs
    simpa using h
  | function _ ih => exact .function nofun ih
  | thenBranch _ ih => exact .ifElse (braced_expr _) ih (braced_stmt _)
  | elseBranch _ ih => exact .ifElse (braced_expr _) (braced_stmt _) ih
  | whileBody _ ih => exact .whileLoop (braced_expr _) ih
  | body _ ih => exact .body ih
  | head _ ih => exact .stmts ih (braced_stmts _)
  | tail _ ih => exact .stmts (braced_stmt _) ih

end Braces

end LoxLang
