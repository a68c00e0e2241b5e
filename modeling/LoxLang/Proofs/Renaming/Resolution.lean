import LoxLang.Proofs.Renaming.Scopes

/-!
# Resolution of a renamed program

It is accepted if the program was, and every reference has the hops that it had
(`resolveStmts_rename`).
-/

namespace LoxLang

/-! ## Outside the scope of the declaration -/

mutual
theorem Expr.rename_none (φ : Renaming) : ∀ e : Expr, e.rename φ none = e
  | .missing | .literal _ | .super .. | .this _ => by simp only [Expr.rename]
  | .variable _ => by simp only [Expr.rename, Reference.rename_none]
  | .assign _ e => by simp only [Expr.rename, Reference.rename_none, Expr.rename_none φ e]
  | .get e _ | .grouping e | .unary _ e => by simp only [Expr.rename, Expr.rename_none φ e]
  | .binary l _ r | .logical l _ r | .set l _ r => by
    simp only [Expr.rename, Expr.rename_none φ l, Expr.rename_none φ r]
  | .call f _ es => by simp only [Expr.rename, Expr.rename_none φ f, renameExprs_none φ es]
theorem renameExprs_none (φ : Renaming) : ∀ es : List Expr, renameExprs φ none es = es
  | [] => by simp only [renameExprs]
  | e :: es => by simp only [renameExprs, Expr.rename_none φ e, renameExprs_none φ es]
end

mutual
theorem Stmt.rename_none (φ : Renaming) : ∀ s : Stmt, s.rename φ none = s
  | .missing => by simp only [Stmt.rename]
  | .block ss => by simp only [Stmt.rename, deeper_none, renameStmts_none φ ss]
  | .classDecl _ superclass fs => by
    cases superclass <;>
      simp [Stmt.rename, renameMethods_none φ fs]
  | .expression e | .print e => by simp only [Stmt.rename, Expr.rename_none φ e]
  | .function f => by simp only [Stmt.rename, Function.rename_none φ f]
  | .ifElse c t e => by
    simp only [Stmt.rename, Expr.rename_none φ c, Stmt.rename_none φ t, Stmt.rename_none φ e]
  | .returning _ e => by cases e <;> simp [Stmt.rename, Expr.rename_none]
  | .varDecl _ e => by cases e <;> simp [Stmt.rename, Expr.rename_none]
  | .whileLoop c b => by simp only [Stmt.rename, Expr.rename_none φ c, Stmt.rename_none φ b]
theorem Function.rename_none (φ : Renaming) : ∀ f : Function, f.rename φ none = f
  | .mk _ _ ss => by simp only [Function.rename, deeper_none, renameStmts_none φ ss]
theorem renameMethods_none (φ : Renaming) : ∀ fs : List Function, renameMethods φ none fs = fs
  | [] => by simp only [renameMethods]
  | f :: fs => by simp only [renameMethods, Function.rename_none φ f, renameMethods_none φ fs]
theorem renameStmts_none (φ : Renaming) : ∀ ss : List Stmt, renameStmts φ none ss = ss
  | [] => by simp only [renameStmts]
  | s :: ss => by simp only [renameStmts, Stmt.rename_none φ s, renameStmts_none φ ss]
end

/-! ## Names of a program -/

/-- The word that a kind of reference is spelled as, if it is a keyword. -/
def ReferenceKind.keyword? : ReferenceKind → Option String
  | this => some "this"
  | super => some "super"
  | _ => none

/-- A reference of a tree that is not resolved yet. -/
structure ReferenceKind.Introduces (kind : ReferenceKind) (r : Reference) : Prop where
  hops : r.hops = none
  keyword : ∀ word ∈ kind.keyword?, r.name.lexeme = word

mutual
/-- The declarations of a statement, of those inside it as well. -/
def Stmt.declarations : Stmt → List Token
  | .block body => stmtDeclarations body
  | .classDecl name _ methods => name :: methodDeclarations methods
  | .function f => f.name :: f.declarations
  | .ifElse _ thenBranch elseBranch => thenBranch.declarations ++ elseBranch.declarations
  | .varDecl name _ => [name]
  | .whileLoop _ body => body.declarations
  | .missing | .expression _ | .print _ | .returning .. => []
def Function.declarations : Function → List Token
  | .mk _ parameters body => parameters ++ stmtDeclarations body
def methodDeclarations : List Function → List Token
  | [] => []
  | f :: rest => f.declarations ++ methodDeclarations rest
def stmtDeclarations : List Stmt → List Token
  | [] => []
  | s :: rest => s.declarations ++ stmtDeclarations rest
end

variable {φ : Renaming} {around : Enclosing} {Γ : List Scope} {inside : Option Nat}

/-- A reference of a tree that is not resolved yet, and that does not use the new name. -/
structure Renaming.Admits (φ : Renaming) (p : ReferenceKind × Reference) : Prop where
  unresolved : p.1.Introduces p.2
  fresh : p.2.name.lexeme ≠ φ.new

/-- A variable may be read if it could be before. -/
theorem Reference.readFindings_rename {r : Reference} (hΓ : φ.FreshIn Γ) (hr : r.hops = none)
    (hnew : r.name.lexeme ≠ φ.new) (h : r.readFindings Γ = []) :
    ((r.resolve Γ).rename φ inside).bare.readFindings (renameScopes φ inside Γ) = [] := by
  obtain ⟨name, hops⟩ := r
  obtain rfl : hops = none := hr
  have hready := Scope.unready_rename hΓ hnew inside
  simp only [Reference.readFindings, findingIf_eq_nil] at h ⊢
  rw [h] at hready
  simpa [Reference.resolve, Reference.rename, Reference.bare, Token.rename] using hready

/-- A keyword keeps its spelling. -/
theorem Reference.resolve_keyword {r : Reference} (hΓ : φ.FreshIn Γ) (hr : r.hops = none)
    (hold : r.name.lexeme ≠ φ.old) (hnew : r.name.lexeme ≠ φ.new) :
    (r.resolve Γ).bare.resolve (renameScopes φ inside Γ) = r.resolve Γ := by
  have hsame : (r.resolve Γ).rename φ inside = r.resolve Γ := Reference.rename_of_ne hold
  rw [← hsame, Reference.resolve_rename hΓ hr hnew]

mutual
theorem Expr.resolve_rename (hΓ : φ.FreshIn Γ) : ∀ e : Expr, (∀ p ∈ e.references, φ.Admits p) →
    (e.resolve around Γ).2 = [] →
    ((e.resolve around Γ).1.rename φ inside).bare.resolve around (renameScopes φ inside Γ) =
      ((e.resolve around Γ).1.rename φ inside, [])
  | .missing, _, _ => by simp only [Expr.resolve, Expr.rename, Expr.bare]
  | .literal _, _, _ => by simp only [Expr.resolve, Expr.rename, Expr.bare]
  | .assign r e, ha, hf => by
    simp only [Expr.references, List.forall_mem_cons] at ha
    simp only [Expr.resolve] at hf
    simp only [Expr.resolve, Expr.rename, Expr.bare, Expr.resolve_rename hΓ e ha.2 hf,
      Reference.resolve_rename hΓ ha.1.unresolved.hops ha.1.fresh]
  | .binary l op r, ha, hf => by
    simp only [Expr.references, List.forall_mem_append] at ha
    simp only [Expr.resolve, List.append_eq_nil_iff] at hf
    simp only [Expr.resolve, Expr.rename, Expr.bare, Expr.resolve_rename hΓ l ha.1 hf.1,
      Expr.resolve_rename hΓ r ha.2 hf.2, List.append_nil]
  | .call f paren es, ha, hf => by
    simp only [Expr.references, List.forall_mem_append] at ha
    simp only [Expr.resolve, List.append_eq_nil_iff] at hf
    simp only [Expr.resolve, Expr.rename, Expr.bare, Expr.resolve_rename hΓ f ha.1 hf.1,
      resolveExprs_rename hΓ es ha.2 hf.2, List.append_nil]
  | .get e name, ha, hf => by
    simp only [Expr.references] at ha
    simp only [Expr.resolve] at hf
    simp only [Expr.resolve, Expr.rename, Expr.bare, Expr.resolve_rename hΓ e ha hf]
  | .grouping e, ha, hf => by
    simp only [Expr.references] at ha
    simp only [Expr.resolve] at hf
    simp only [Expr.resolve, Expr.rename, Expr.bare, Expr.resolve_rename hΓ e ha hf]
  | .logical l op r, ha, hf => by
    simp only [Expr.references, List.forall_mem_append] at ha
    simp only [Expr.resolve, List.append_eq_nil_iff] at hf
    simp only [Expr.resolve, Expr.rename, Expr.bare, Expr.resolve_rename hΓ l ha.1 hf.1,
      Expr.resolve_rename hΓ r ha.2 hf.2, List.append_nil]
  | .set e name v, ha, hf => by
    simp only [Expr.references, List.forall_mem_append] at ha
    simp only [Expr.resolve, List.append_eq_nil_iff] at hf
    simp only [Expr.resolve, Expr.rename, Expr.bare, Expr.resolve_rename hΓ e ha.1 hf.2,
      Expr.resolve_rename hΓ v ha.2 hf.1, List.append_nil]
  | .super k method, ha, hf => by
    simp only [Expr.references, List.forall_mem_singleton] at ha
    simp only [Expr.resolve] at hf
    have hk : k.name.lexeme ≠ φ.old := ha.unresolved.keyword _ rfl ▸ φ.old_identifier.ne_super.symm
    have hf : around.superFindings (k.resolve Γ).bare.name = [] := hf
    simp only [Expr.resolve, Expr.rename, Expr.bare,
      Reference.resolve_keyword hΓ ha.unresolved.hops hk ha.fresh, hf]
  | .this k, ha, hf => by
    simp only [Expr.references, List.forall_mem_singleton] at ha
    simp only [Expr.resolve] at hf
    have hk : k.name.lexeme ≠ φ.old := ha.unresolved.keyword _ rfl ▸ φ.old_identifier.ne_this.symm
    split at hf
    · cases hf
    · next hc =>
      simp only [Expr.resolve, hc, ↓reduceIte, Expr.rename, Expr.bare, Bool.false_eq_true,
        Reference.resolve_keyword hΓ ha.unresolved.hops hk ha.fresh]
  | .unary op e, ha, hf => by
    simp only [Expr.references] at ha
    simp only [Expr.resolve] at hf
    simp only [Expr.resolve, Expr.rename, Expr.bare, Expr.resolve_rename hΓ e ha hf]
  | .variable r, ha, hf => by
    simp only [Expr.references, List.forall_mem_singleton] at ha
    simp only [Expr.resolve] at hf
    simp only [Expr.resolve, Expr.rename, Expr.bare,
      Reference.resolve_rename hΓ ha.unresolved.hops ha.fresh,
      Reference.readFindings_rename hΓ ha.unresolved.hops ha.fresh hf]
theorem resolveExprs_rename (hΓ : φ.FreshIn Γ) :
    ∀ es : List Expr, (∀ p ∈ exprReferences es, φ.Admits p) →
    (resolveExprs around Γ es).2 = [] →
    resolveExprs around (renameScopes φ inside Γ)
      (bareExprs (renameExprs φ inside (resolveExprs around Γ es).1)) =
      (renameExprs φ inside (resolveExprs around Γ es).1, [])
  | [], _, _ => by simp only [resolveExprs, renameExprs, bareExprs]
  | e :: es, ha, hf => by
    simp only [exprReferences, List.forall_mem_append] at ha
    simp only [resolveExprs, List.append_eq_nil_iff] at hf
    simp only [resolveExprs, renameExprs, bareExprs, Expr.resolve_rename hΓ e ha.1 hf.1,
      resolveExprs_rename hΓ es ha.2 hf.2, List.append_nil]
end

theorem Expr.resolveOption_rename (hΓ : φ.FreshIn Γ) (e : Option Expr)
    (ha : ∀ p ∈ Expr.optionReferences e, φ.Admits p)
    (hf : (Expr.resolveOption around Γ e).2 = []) (inside : Option Nat) :
    Expr.resolveOption around (renameScopes φ inside Γ)
      (((Expr.resolveOption around Γ e).1.map (·.rename φ inside)).map Expr.bare) =
      ((Expr.resolveOption around Γ e).1.map (·.rename φ inside), []) := by
  cases e with
  | none => rfl
  | some e =>
    simp only [Expr.resolveOption, Option.map_some] at hf ⊢
    rw [Expr.resolve_rename hΓ e ha hf]

/-! ## Declarations -/

/-- The functions and classes that a statement declares in the scope it stands in. -/
def Stmt.titles : Stmt → List Token
  | .classDecl name _ _ => [name]
  | .function f => [f.name]
  | .ifElse _ thenBranch elseBranch => thenBranch.titles ++ elseBranch.titles
  | .whileLoop _ body => body.titles
  | _ => []

theorem Stmt.mem_declarations : ∀ s : Stmt, ∀ t ∈ s.declared, t ∈ s.declarations
  | .missing, _, h | .block _, _, h | .expression _, _, h | .print _, _, h | .returning .., _, h =>
    nomatch h
  | .classDecl name _ _, t, h => by
    simp only [Stmt.declared, List.mem_singleton] at h
    simp [Stmt.declarations, h]
  | .function f, t, h => by
    simp only [Stmt.declared, List.mem_singleton] at h
    simp [Stmt.declarations, h]
  | .varDecl name _, t, h => h
  | .ifElse _ a b, t, h => by
    simp only [Stmt.declared, List.mem_append] at h
    simp only [Stmt.declarations, List.mem_append]
    exact h.imp (a.mem_declarations t) (b.mem_declarations t)
  | .whileLoop _ b, t, h => b.mem_declarations t h

namespace Renaming.FreshIn

theorem cons (hΓ : φ.FreshIn Γ) (hscope : ¬Bindings.contains φ.new scope) :
    φ.FreshIn (scope :: Γ) :=
  List.forall_mem_cons.2 ⟨hscope, hΓ⟩

theorem push (hΓ : φ.FreshIn Γ) : φ.FreshIn ([] :: Γ) := hΓ.cons nofun

theorem declare (hΓ : φ.FreshIn Γ) (hz : z ≠ φ.new) : φ.FreshIn (Scope.declare z Γ) := by
  cases Γ with
  | nil => exact hΓ
  | cons scope Γ =>
    obtain ⟨hscope, hΓ⟩ := List.forall_mem_cons.1 hΓ
    exact cons hΓ (by simpa [Bindings.contains_insert, hz.symm] using hscope)

theorem introduce (hΓ : φ.FreshIn Γ) {t : Token} (hz : t.lexeme ≠ φ.new) :
    φ.FreshIn (Scope.introduce t Γ) := by
  cases Γ with
  | nil => exact hΓ
  | cons scope Γ =>
    obtain ⟨hscope, hΓ⟩ := List.forall_mem_cons.1 hΓ
    exact cons hΓ fun hc => ((Scope.contains_add t scope φ.new).1 hc).elim hz.symm hscope

theorem introduceEach (hΓ : φ.FreshIn Γ) {ts : List Token} (hz : ∀ t ∈ ts, t.lexeme ≠ φ.new) :
    φ.FreshIn (Scope.introduceEach ts Γ) := by
  induction ts generalizing Γ with
  | nil => exact hΓ
  | cons t ts ih =>
    obtain ⟨ht, hts⟩ := List.forall_mem_cons.1 hz
    exact ih (hΓ.introduce ht) hts

theorem aroundMethods (hΓ : φ.FreshIn Γ) (hasSuperclass : Bool) :
    φ.FreshIn (Scope.aroundMethods hasSuperclass Γ) := by
  have hthis : ¬Bindings.contains φ.new [("this", true)] := by
    simpa [Bindings.contains, Bindings.get?] using φ.new_identifier.ne_this
  have hsuper : ¬Bindings.contains φ.new [("super", true)] := by
    simpa [Bindings.contains, Bindings.get?] using φ.new_identifier.ne_super
  cases hasSuperclass with
  | true => exact cons (cons hΓ hsuper) hthis
  | false => exact cons hΓ hthis

end Renaming.FreshIn

namespace Scope

theorem introduce_rename (hΓ : φ.FreshIn Γ) {t : Token} (ht : t.lexeme ≠ φ.new)
    (inside : Option Nat) :
    introduce (t.rename φ (inside = some 0)) (renameScopes φ inside Γ) =
      renameScopes φ inside (introduce t Γ) := by
  have hdeclare := declare_rename hΓ ht inside
  have hdefine := define_rename (hΓ.declare ht) ht inside
  simp only [introduce, Token.rename]
  rw [hdeclare, hdefine]

theorem declareFindings_rename (hΓ : φ.FreshIn Γ) {t : Token} (ht : t.lexeme ≠ φ.new)
    (h : declareFindings t Γ = []) (inside : Option Nat) :
    declareFindings (t.rename φ (inside = some 0)) (renameScopes φ inside Γ) = [] := by
  simp only [declareFindings, findingIf_eq_nil] at h ⊢
  exact (redeclares_rename hΓ ht inside).trans h

/-- Parameters are declared as before. -/
theorem introduceAll_rename {ps : List Token} (hΓ : φ.FreshIn Γ)
    (hps : ∀ p ∈ ps, p.lexeme ≠ φ.new) (h : (introduceAll ps Γ).2 = []) (inside : Option Nat) :
    introduceAll (ps.map (·.rename φ (inside = some 0))) (renameScopes φ inside Γ) =
      (renameScopes φ inside (introduceAll ps Γ).1, []) := by
  induction ps generalizing Γ with
  | nil => rfl
  | cons p ps ih =>
    obtain ⟨hp, hps⟩ := List.forall_mem_cons.1 hps
    simp only [introduceAll, List.append_eq_nil_iff] at h
    simp only [List.map_cons, introduceAll, introduce_rename hΓ hp, ih (hΓ.introduce hp) hps h.2,
      declareFindings_rename hΓ hp h.1, List.append_nil]

end Scope

/-- A superclass other than the class itself. -/
theorem Reference.resolveSuperclass_rename {r : Reference} {className : Token}
    (hΓ : φ.FreshIn Γ) (hname : className.lexeme ≠ φ.new) (ha : φ.Admits (.variable, r))
    (h : (r.resolveSuperclass Γ className).2 = []) (inside : Option Nat) :
    Reference.resolveSuperclass (renameScopes φ inside Γ) className
      ((r.resolveSuperclass Γ className).1.rename φ inside).bare =
      ((r.resolveSuperclass Γ className).1.rename φ inside, []) := by
  simp only [Reference.resolveSuperclass, List.append_eq_nil_iff, findingIf_eq_nil,
    decide_eq_false_iff_not] at h ⊢
  have hother : className.lexeme ≠ ((r.resolve Γ).rename φ inside).bare.name.lexeme := by
    unfold Reference.rename Token.rename Renaming.name
    split
    · exact hname
    · exact h.1
  rw [Reference.resolve_rename hΓ ha.unresolved.hops ha.fresh,
    Reference.readFindings_rename hΓ ha.unresolved.hops ha.fresh h.2]
  simp [findingIf, hother]

/-! ## Statements -/

/-- What a renaming asks of the references and declarations in a tree: no reference is resolved yet,
the new name is not used, and in the scope of the declaration, no function or class has the old
name. -/
structure Renaming.Suits (φ : Renaming) (inside : Option Nat)
    (references : List (ReferenceKind × Reference)) (declarations titles : List Token) : Prop where
  references : ∀ p ∈ references, φ.Admits p
  declarations : ∀ t ∈ declarations, t.lexeme ≠ φ.new
  titles : inside = some 0 → ∀ t ∈ titles, t.lexeme ≠ φ.old

theorem Renaming.Suits.append (h : φ.Suits inside (rs ++ rs') (ds ++ ds') (ts ++ ts')) :
    φ.Suits inside rs ds ts ∧ φ.Suits inside rs' ds' ts' := by
  obtain ⟨hr, hr'⟩ := List.forall_mem_append.1 h.references
  obtain ⟨hd, hd'⟩ := List.forall_mem_append.1 h.declarations
  exact ⟨⟨hr, hd, fun h0 => (List.forall_mem_append.1 (h.titles h0)).1⟩,
    ⟨hr', hd', fun h0 => (List.forall_mem_append.1 (h.titles h0)).2⟩⟩

/-- Functions and classes keep their names. -/
theorem Token.rename_title {t : Token} (h : inside = some 0 → t.lexeme ≠ φ.old) :
    t.rename φ (inside = some 0) = t := by
  by_cases h0 : inside = some 0
  · exact Token.rename_of_ne (h h0) _
  · simp [h0]

theorem renameScopes_aroundMethods (hasSuperclass : Bool) (Γ : List Scope) :
    renameScopes φ (deeper (if hasSuperclass then 2 else 1) inside)
      (Scope.aroundMethods hasSuperclass Γ) =
      Scope.aroundMethods hasSuperclass (renameScopes φ inside Γ) := by
  cases inside <;> cases hasSuperclass <;> simp [Scope.aroundMethods, deeper, renameScopes]

namespace Function

@[simp] theorem name_bare (f : Function) : f.bare.name = f.name := by
  obtain ⟨n, ps, ss⟩ := f
  simp only [bare, name]

@[simp] theorem name_rename (f : Function) : (f.rename φ inside).name = f.name := by
  obtain ⟨n, ps, ss⟩ := f
  simp only [rename, name]

end Function

theorem resolve_function_rename (name : Token) {ps : List Token} {ss ss' : List Stmt}
    {inner : Option Nat} (hinner : renameScopes φ inner ([] :: Γ) = [] :: Γ')
    (hΓ : φ.FreshIn Γ) (hps : ∀ p ∈ ps, p.lexeme ≠ φ.new)
    (hf : ((Function.mk name ps ss).resolve around Γ).2 = [])
    (hss : resolveStmts around (renameScopes φ inner (Scope.introduceAll ps ([] :: Γ)).1)
      (bareStmts ss') = ⟨ss', scopes, []⟩) :
    (Function.mk name (ps.map (·.rename φ (inner = some 0))) (bareStmts ss')).resolve around Γ' =
      (.mk name (ps.map (·.rename φ (inner = some 0))) ss', []) := by
  simp only [Function.resolve, List.append_eq_nil_iff] at hf
  have hall := Scope.introduceAll_rename hΓ.push hps hf.1 inner
  rw [hinner] at hall
  simp only [Function.resolve, hall, hss, List.append_nil]

mutual
theorem Stmt.resolve_rename : ∀ (s : Stmt) (around : Enclosing) {Γ : List Scope}
    (inside : Option Nat), φ.FreshIn Γ → φ.Suits inside s.references s.declarations s.titles →
    (s.resolve around Γ).findings = [] →
    ((s.resolve around Γ).tree.rename φ inside).bare.resolve around (renameScopes φ inside Γ) =
      ⟨(s.resolve around Γ).tree.rename φ inside,
        renameScopes φ inside (s.resolve around Γ).scopes, []⟩
  | .missing, around, Γ, inside, hΓ, hs, hf => by
    simp only [Stmt.resolve, Stmt.rename, Stmt.bare]
  | .block ss, around, Γ, inside, hΓ, hs, hf => by
    have hr := hs.references
    have hd := hs.declarations
    simp only [Stmt.references, Stmt.declarations, Stmt.resolve] at hr hd hf
    have hss := resolveStmts_rename ss around (deeper 1 inside) hΓ.push
      ⟨hr, hd, fun h0 => absurd h0 (deeper_ne_zero 0 inside)⟩ hf
    rw [renameScopes_deeper] at hss
    simp only [Stmt.resolve, Stmt.rename, Stmt.bare, hss]
  | .classDecl name superclass fs, around, Γ, inside, hΓ, hs, hf => by
    obtain ⟨hr, hd, ht⟩ := hs
    simp only [Stmt.references, List.forall_mem_append, Stmt.declarations, List.forall_mem_cons,
      Stmt.resolve, List.append_eq_nil_iff] at hr hd hf
    have hname : name.rename φ (inside = some 0) = name :=
      Token.rename_title fun h0 => ht h0 _ List.mem_cons_self
    have hout := Scope.introduce_rename hΓ hd.1 inside
    have hfind := Scope.declareFindings_rename hΓ hd.1 hf.1.1 inside
    rw [hname] at hout hfind
    have hΓ' := hΓ.introduce hd.1
    have hfs := resolveMethods_rename fs _ (deeper (if superclass.isSome then 2 else 1) inside)
      (hΓ'.aroundMethods superclass.isSome) hr.2 hd.2 hf.2
    rw [renameScopes_aroundMethods] at hfs
    cases superclass with
    | none =>
      simp only [Stmt.resolve, Stmt.rename, Stmt.bare, Option.map_none, hout, hfind, hfs,
        Option.getD_none, List.append_nil]
    | some r =>
      simp only [Option.toList_some, List.map_cons, List.map_nil, List.forall_mem_cons] at hr
      simp only [Option.map_some, Option.getD_some] at hf
      have hparent := Reference.resolveSuperclass_rename hΓ' hd.1 hr.1.1 hf.1.2 inside
      simp only [Option.isSome_some, ↓reduceIte] at hfs
      simp only [Stmt.resolve, Stmt.rename, Stmt.bare, Option.map_some, Option.isSome_some,
        ↓reduceIte, hout, hfind, hparent, hfs, Option.getD_some, List.append_nil]
  | .expression e, around, Γ, inside, hΓ, hs, hf => by
    have hr := hs.references
    simp only [Stmt.references, Stmt.resolve] at hr hf
    simp only [Stmt.resolve, Stmt.rename, Stmt.bare, Expr.resolve_rename hΓ e hr hf]
  | .function f, around, Γ, inside, hΓ, hs, hf => by
    obtain ⟨hr, hd, ht⟩ := hs
    simp only [Stmt.references, Stmt.declarations, List.forall_mem_cons, Stmt.resolve,
      List.append_eq_nil_iff] at hr hd hf
    have hname : f.name.rename φ (inside = some 0) = f.name :=
      Token.rename_title fun h0 => ht h0 _ List.mem_cons_self
    have hout := Scope.introduce_rename hΓ hd.1 inside
    have hfind := Scope.declareFindings_rename hΓ hd.1 hf.1 inside
    rw [hname] at hout hfind
    have hbody := Function.resolve_rename f _ inside (hΓ.introduce hd.1) hr hd.2 hf.2
    simp only [Stmt.resolve, Stmt.rename, Stmt.bare, Function.name_bare, Function.name_rename,
      Function.name_resolve, hout, hfind, hbody, List.append_nil]
  | .ifElse c t e, around, Γ, inside, hΓ, hs, hf => by
    have hr := hs.references
    simp only [Stmt.references, List.forall_mem_append, Stmt.resolve,
      List.append_eq_nil_iff] at hr hf
    have ht := Stmt.resolve_rename t around inside hΓ ⟨hr.1.2, fun u hu => hs.declarations u
      (by simp [Stmt.declarations, hu]), fun h0 u hu => hs.titles h0 u (by simp [Stmt.titles, hu])⟩
      hf.1.2
    have he := Stmt.resolve_rename e around inside
      (Stmt.scopes_resolve around t Γ ▸ hΓ.introduceEach fun u hu =>
        hs.declarations u (by simp [Stmt.declarations, t.mem_declarations u hu]))
      ⟨hr.2, fun u hu => hs.declarations u (by simp [Stmt.declarations, hu]),
        fun h0 u hu => hs.titles h0 u (by simp [Stmt.titles, hu])⟩ hf.2
    simp only [Stmt.resolve, Stmt.rename, Stmt.bare, Expr.resolve_rename hΓ c hr.1.1 hf.1.1, ht, he,
      List.append_nil]
  | .print e, around, Γ, inside, hΓ, hs, hf => by
    have hr := hs.references
    simp only [Stmt.references, Stmt.resolve] at hr hf
    simp only [Stmt.resolve, Stmt.rename, Stmt.bare, Expr.resolve_rename hΓ e hr hf]
  | .returning k e, around, Γ, inside, hΓ, hs, hf => by
    have hr := hs.references
    simp only [Stmt.references, Stmt.resolve, List.append_eq_nil_iff] at hr hf
    have he := Expr.resolveOption_rename hΓ e hr hf.2 inside
    have hsome : (((Expr.resolveOption around Γ e).1.map (·.rename φ inside)).map
        Expr.bare).isSome = e.isSome := by cases e <;> rfl
    simp only [Stmt.resolve, Stmt.rename, Stmt.bare, he, hsome, hf.1, List.append_nil]
  | .varDecl name e, around, Γ, inside, hΓ, hs, hf => by
    have hr := hs.references
    have hd := hs.declarations
    simp only [Stmt.references, Stmt.declarations, List.forall_mem_singleton, Stmt.resolve,
      List.append_eq_nil_iff] at hr hd hf
    have he := Expr.resolveOption_rename (hΓ.declare hd) e hr hf.2 inside
    rw [← Scope.declare_rename hΓ hd] at he
    have hdefine := Scope.define_rename (hΓ.declare hd) hd inside
    rw [← Scope.declare_rename hΓ hd] at hdefine
    have hfind := Scope.declareFindings_rename hΓ hd hf.1 inside
    simp only [Stmt.resolve, Stmt.rename, Stmt.bare, hfind, Token.lexeme_rename, he, hdefine,
      List.append_nil]
  | .whileLoop c b, around, Γ, inside, hΓ, hs, hf => by
    have hr := hs.references
    simp only [Stmt.references, List.forall_mem_append, Stmt.resolve,
      List.append_eq_nil_iff] at hr hf
    have hb := Stmt.resolve_rename b around inside hΓ ⟨hr.2, hs.declarations, hs.titles⟩ hf.2
    simp only [Stmt.resolve, Stmt.rename, Stmt.bare, Expr.resolve_rename hΓ c hr.1 hf.1, hb,
      List.append_nil]
theorem Function.resolve_rename : ∀ (f : Function) (around : Enclosing) {Γ : List Scope}
    (inside : Option Nat), φ.FreshIn Γ → (∀ p ∈ f.references, φ.Admits p) →
    (∀ t ∈ f.declarations, t.lexeme ≠ φ.new) → (f.resolve around Γ).2 = [] →
    ((f.resolve around Γ).1.rename φ inside).bare.resolve around (renameScopes φ inside Γ) =
      ((f.resolve around Γ).1.rename φ inside, [])
  | .mk name ps ss, around, Γ, inside, hΓ, hr, hd, hf => by
    simp only [Function.declarations, List.forall_mem_append] at hd
    have hinner := hΓ.push
    have hall := Scope.introduceAll_fst ps ([] :: Γ)
    have hf' := hf
    simp only [Function.resolve, List.append_eq_nil_iff, hall] at hf'
    have hss := resolveStmts_rename ss around (deeper 1 inside) (hinner.introduceEach hd.1)
      ⟨hr, hd.2, fun h0 => absurd h0 (deeper_ne_zero 0 inside)⟩ hf'.2
    rw [← hall] at hss
    have := resolve_function_rename name (renameScopes_deeper ..) hΓ hd.1 hf hss
    simpa [Function.resolve, Function.rename, Function.bare, deeper_ne_zero] using this
theorem resolveMethods_rename : ∀ (fs : List Function) (around : Enclosing) {Γ : List Scope}
    (inside : Option Nat), φ.FreshIn Γ → (∀ p ∈ functionReferences fs, φ.Admits p) →
    (∀ t ∈ methodDeclarations fs, t.lexeme ≠ φ.new) → (resolveMethods around Γ fs).2 = [] →
    resolveMethods around (renameScopes φ inside Γ)
      (bareMethods (renameMethods φ inside (resolveMethods around Γ fs).1)) =
      (renameMethods φ inside (resolveMethods around Γ fs).1, [])
  | [], around, Γ, inside, hΓ, hr, hd, hf => by
    simp only [resolveMethods, renameMethods, bareMethods]
  | f :: fs, around, Γ, inside, hΓ, hr, hd, hf => by
    simp only [functionReferences, methodDeclarations, List.forall_mem_append] at hr hd
    simp only [resolveMethods, List.append_eq_nil_iff] at hf
    have hfirst := Function.resolve_rename f _ inside hΓ hr.1 hd.1 hf.1
    have hrest := resolveMethods_rename fs around inside hΓ hr.2 hd.2 hf.2
    simp only [resolveMethods, renameMethods, bareMethods, Function.name_bare,
      Function.name_rename, Function.name_resolve, hfirst, hrest, List.append_nil]
theorem resolveStmts_rename : ∀ (ss : List Stmt) (around : Enclosing) {Γ : List Scope}
    (inside : Option Nat), φ.FreshIn Γ →
    φ.Suits inside (stmtReferences ss) (stmtDeclarations ss) (ss.flatMap Stmt.titles) →
    (resolveStmts around Γ ss).findings = [] →
    resolveStmts around (renameScopes φ inside Γ)
      (bareStmts (renameStmts φ inside (resolveStmts around Γ ss).tree)) =
      ⟨renameStmts φ inside (resolveStmts around Γ ss).tree,
        renameScopes φ inside (resolveStmts around Γ ss).scopes, []⟩
  | [], around, Γ, inside, hΓ, hs, hf => by
    simp only [resolveStmts, renameStmts, bareStmts]
  | s :: ss, around, Γ, inside, hΓ, hs, hf => by
    simp only [stmtReferences, stmtDeclarations, List.flatMap_cons] at hs
    obtain ⟨hs, hss⟩ := hs.append
    simp only [resolveStmts, List.append_eq_nil_iff] at hf
    have hfirst := Stmt.resolve_rename s around inside hΓ hs hf.1
    have hrest := resolveStmts_rename ss around inside
      (Stmt.scopes_resolve around s Γ ▸ hΓ.introduceEach fun t ht =>
        hs.declarations t (s.mem_declarations t ht)) hss hf.2
    simp only [resolveStmts, renameStmts, bareStmts, hfirst, hrest, List.append_nil]
end

end LoxLang
