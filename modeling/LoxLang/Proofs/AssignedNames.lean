import LoxLang.Proofs.Renaming.Trees
import LoxLang.Proofs.WellFormed

/-!
# Names that are assigned

In a tree that was read from text, only identifiers are assigned (`writable_stmts`,
`Expr.writable`), whatever numbers of scopes its references have been given since: the resolver
changes nothing else (`bareStmts_resolve`, `Expr.bare_resolve`).
-/

namespace LoxLang

/-- A reference that is assigned is named by an identifier. -/
def Writable (r : ReferenceKind × Reference) : Prop := r.1 = .assign → IsIdentifier r.2.name.lexeme

/-- A listed reference as it is before it is resolved. -/
def bareReference (r : ReferenceKind × Reference) : ReferenceKind × Reference := (r.1, r.2.bare)

/-! ## Well-formed trees -/

mutual
theorem Expr.writable : ∀ e : Expr, e.WellFormed → ∀ r ∈ e.references, Writable r
  | .missing, h => h.elim
  | .literal _, _ => List.forall_mem_nil _
  | .super _ _, _ | .this _, _ | .variable _, _ => List.forall_mem_singleton.2 nofun
  | .assign _ e, h => List.forall_mem_cons.2 ⟨fun _ => h.1.name, e.writable h.2⟩
  | .binary l _ r, h => List.forall_mem_append.2 ⟨l.writable h.1, r.writable h.2.2⟩
  | .logical l _ r, h | .set l _ r, h => List.forall_mem_append.2 ⟨l.writable h.1, r.writable h.2⟩
  | .call f _ es, h => List.forall_mem_append.2 ⟨f.writable h.1, writable_exprs es h.2⟩
  | .get e _, h | .grouping e, h => e.writable h
  | .unary _ e, h => e.writable h.2
theorem writable_exprs : ∀ es, WellFormedExprs es → ∀ r ∈ exprReferences es, Writable r
  | [], _ => List.forall_mem_nil _
  | e :: es, h => List.forall_mem_append.2 ⟨e.writable h.1, writable_exprs es h.2⟩
end

theorem Expr.writable_option (o : Option Expr) (h : WellFormedOption o) :
    ∀ r ∈ optionReferences o, Writable r := by
  cases o with
  | none => exact List.forall_mem_nil _
  | some e => exact e.writable h

mutual
theorem Stmt.writable : ∀ t : Stmt, t.WellFormed → ∀ r ∈ t.references, Writable r
  | .missing, _ => List.forall_mem_nil _
  | .block ts, h => writable_stmts ts h
  | .classDecl _ superclass fs, h => by
    refine List.forall_mem_append.2 ⟨fun r hr => ?_, writable_functions fs h.2.2⟩
    obtain ⟨_, -, rfl⟩ := List.mem_map.1 hr
    exact nofun
  | .expression e, h | .print e, h => e.writable h
  | .function f, h => f.writable h
  | .ifElse c t e, h => List.forall_mem_append.2
      ⟨List.forall_mem_append.2 ⟨c.writable h.1, t.writable h.2.1.1⟩, e.writable h.2.2.1⟩
  | .returning _ o, h => Expr.writable_option o h
  | .varDecl _ o, h => Expr.writable_option o h.2
  | .whileLoop c t, h => List.forall_mem_append.2 ⟨c.writable h.1, t.writable h.2.1⟩
theorem Function.writable : ∀ f : Function, f.WellFormed → ∀ r ∈ f.references, Writable r
  | .mk _ _ ts, h => writable_stmts ts h.2.2
theorem writable_stmts : ∀ ts, WellFormedStmts ts → ∀ r ∈ stmtReferences ts, Writable r
  | [], _ => List.forall_mem_nil _
  | t :: ts, h => List.forall_mem_append.2 ⟨t.writable h.1, writable_stmts ts h.2⟩
theorem writable_functions : ∀ fs, WellFormedFunctions fs → ∀ r ∈ functionReferences fs, Writable r
  | [], _ => List.forall_mem_nil _
  | f :: fs, h => List.forall_mem_append.2 ⟨f.writable h.1, writable_functions fs h.2⟩
end

/-! ## Bare trees -/

mutual
theorem Expr.references_bare : ∀ e : Expr, e.bare.references = e.references.map bareReference
  | .missing | .literal _ | .super _ _ | .this _ | .variable _ => by
    simp only [Expr.bare, Expr.references, List.map_cons, List.map_nil, bareReference]
  | .assign _ e => by
    simp only [Expr.bare, Expr.references, List.map_cons, bareReference, e.references_bare]
  | .get e _ | .grouping e | .unary _ e => by
    simp only [Expr.bare, Expr.references, e.references_bare]
  | .binary l _ r | .logical l _ r | .set l _ r => by
    simp only [Expr.bare, Expr.references, List.map_append, l.references_bare, r.references_bare]
  | .call f _ es => by
    simp only [Expr.bare, Expr.references, List.map_append, f.references_bare,
      exprReferences_bare es]
theorem exprReferences_bare :
    ∀ es : List Expr, exprReferences (bareExprs es) = (exprReferences es).map bareReference
  | [] => by simp only [bareExprs, exprReferences, List.map_nil]
  | e :: es => by
    simp only [bareExprs, exprReferences, List.map_append, e.references_bare,
      exprReferences_bare es]
end

theorem Expr.optionReferences_bare (o : Option Expr) :
    optionReferences (o.map Expr.bare) = (optionReferences o).map bareReference := by
  cases o with
  | none => rfl
  | some e => exact e.references_bare

mutual
theorem Stmt.references_bare : ∀ t : Stmt, t.bare.references = t.references.map bareReference
  | .missing => by simp only [Stmt.bare, Stmt.references, List.map_nil]
  | .block ts => by simp only [Stmt.bare, Stmt.references, stmtReferences_bare ts]
  | .classDecl _ superclass fs => by
    simp only [Stmt.bare, Stmt.references, List.map_append, functionReferences_bare fs]
    cases superclass <;> rfl
  | .expression e | .print e => by simp only [Stmt.bare, Stmt.references, e.references_bare]
  | .function f => by simp only [Stmt.bare, Stmt.references, f.references_bare]
  | .ifElse c t e => by
    simp only [Stmt.bare, Stmt.references, List.map_append, c.references_bare, t.references_bare,
      e.references_bare]
  | .returning _ o | .varDecl _ o => by
    simp only [Stmt.bare, Stmt.references, Expr.optionReferences_bare]
  | .whileLoop c t => by
    simp only [Stmt.bare, Stmt.references, List.map_append, c.references_bare, t.references_bare]
theorem Function.references_bare :
    ∀ f : Function, f.bare.references = f.references.map bareReference
  | .mk _ _ ts => by simp only [Function.bare, Function.references, stmtReferences_bare ts]
theorem functionReferences_bare : ∀ fs : List Function,
    functionReferences (bareMethods fs) = (functionReferences fs).map bareReference
  | [] => by simp only [bareMethods, functionReferences, List.map_nil]
  | f :: fs => by
    simp only [bareMethods, functionReferences, List.map_append, f.references_bare,
      functionReferences_bare fs]
theorem stmtReferences_bare :
    ∀ ts : List Stmt, stmtReferences (bareStmts ts) = (stmtReferences ts).map bareReference
  | [] => by simp only [bareStmts, stmtReferences, List.map_nil]
  | t :: ts => by
    simp only [bareStmts, stmtReferences, List.map_append, t.references_bare,
      stmtReferences_bare ts]
end

/-! ## Resolved trees -/

theorem Reference.bare_resolve (scopes : List Scope) (r : Reference) :
    (r.resolve scopes).bare = r.bare := rfl

mutual
theorem Expr.bare_resolve (A : Enclosing) (scopes : List Scope) :
    ∀ e : Expr, (e.resolve A scopes).1.bare = e.bare
  | .missing | .literal _ | .super _ _ | .variable _ => by
    simp only [Expr.resolve, Expr.bare, Reference.bare_resolve]
  | .this keyword => by
    simp only [Expr.resolve]
    split <;> simp only [Expr.bare, Reference.bare_resolve]
  | .assign _ e => by
    simp only [Expr.resolve, Expr.bare, Reference.bare_resolve, e.bare_resolve A scopes]
  | .get e _ | .grouping e | .unary _ e => by
    simp only [Expr.resolve, Expr.bare, e.bare_resolve A scopes]
  | .binary l _ r | .logical l _ r | .set l _ r => by
    simp only [Expr.resolve, Expr.bare, l.bare_resolve A scopes, r.bare_resolve A scopes]
  | .call f _ es => by
    simp only [Expr.resolve, Expr.bare, f.bare_resolve A scopes, bareExprs_resolve A scopes es]
theorem bareExprs_resolve (A : Enclosing) (scopes : List Scope) :
    ∀ es : List Expr, bareExprs (resolveExprs A scopes es).1 = bareExprs es
  | [] => by simp only [resolveExprs, bareExprs]
  | e :: es => by
    simp only [resolveExprs, bareExprs, e.bare_resolve A scopes, bareExprs_resolve A scopes es]
end

theorem Expr.bare_resolveOption (A : Enclosing) (scopes : List Scope) (o : Option Expr) :
    (resolveOption A scopes o).1.map Expr.bare = o.map Expr.bare := by
  cases o with
  | none => rfl
  | some e => exact congrArg some (e.bare_resolve A scopes)

mutual
theorem Stmt.bare_resolve (A : Enclosing) (scopes : List Scope) :
    ∀ t : Stmt, (t.resolve A scopes).tree.bare = t.bare
  | .missing => by simp only [Stmt.resolve, Stmt.bare]
  | .block ts => by simp only [Stmt.resolve, Stmt.bare, bareStmts_resolve A _ ts]
  | .classDecl _ superclass fs => by
    simp only [Stmt.resolve, Stmt.bare, bareMethods_resolve _ _ fs]
    cases superclass <;> rfl
  | .expression e | .print e => by simp only [Stmt.resolve, Stmt.bare, e.bare_resolve A scopes]
  | .function f => by simp only [Stmt.resolve, Stmt.bare, f.bare_resolve]
  | .ifElse c t e => by
    simp only [Stmt.resolve, Stmt.bare, c.bare_resolve A scopes, t.bare_resolve A, e.bare_resolve A]
  | .returning _ o | .varDecl _ o => by simp only [Stmt.resolve, Stmt.bare, Expr.bare_resolveOption]
  | .whileLoop c t => by
    simp only [Stmt.resolve, Stmt.bare, c.bare_resolve A scopes, t.bare_resolve A]
theorem Function.bare_resolve (A : Enclosing) (scopes : List Scope) :
    ∀ f : Function, (f.resolve A scopes).1.bare = f.bare
  | .mk _ _ ts => by simp only [Function.resolve, Function.bare, bareStmts_resolve A _ ts]
theorem bareMethods_resolve (A : Enclosing) (scopes : List Scope) :
    ∀ fs : List Function, bareMethods (resolveMethods A scopes fs).1 = bareMethods fs
  | [] => by simp only [resolveMethods, bareMethods]
  | f :: fs => by
    simp only [resolveMethods, bareMethods, f.bare_resolve, bareMethods_resolve A scopes fs]
theorem bareStmts_resolve (A : Enclosing) (scopes : List Scope) :
    ∀ ts : List Stmt, bareStmts (resolveStmts A scopes ts).tree = bareStmts ts
  | [] => by simp only [resolveStmts, bareStmts]
  | t :: ts => by
    simp only [resolveStmts, bareStmts, t.bare_resolve A scopes, bareStmts_resolve A _ ts]
end

end LoxLang
