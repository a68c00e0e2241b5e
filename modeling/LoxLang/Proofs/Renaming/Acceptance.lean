import LoxLang.Proofs.Renaming.Resolution

/-!
# Acceptance of a renamed program

A program with one local declaration renamed is accepted, and every reference has the hops that it
had (`RenamesLocal.hopsOf`).
-/

namespace LoxLang

/-! ## The other declarations of the scope -/

theorem Stmt.declared_perm : ∀ s : Stmt, s.declared.Perm (s.variables ++ s.titles)
  | .missing | .block _ | .expression _ | .print _ | .returning .. | .classDecl .. | .function _
  | .varDecl .. => .refl _
  | .ifElse _ t e => by
    simp only [declared, Stmt.variables, titles]
    refine (t.declared_perm.append e.declared_perm).trans ?_
    rw [List.append_assoc, List.append_assoc]
    exact (List.perm_append_comm_assoc ..).append_left _
  | .whileLoop _ b => b.declared_perm

theorem declaredNames_perm (ss : List Stmt) :
    (declaredNames ss).Perm (ss.flatMap Stmt.variables ++ ss.flatMap Stmt.titles) := by
  induction ss with
  | nil => exact .refl _
  | cons s ss ih =>
    rw [declaredNames_cons, List.flatMap_cons, List.flatMap_cons]
    refine (s.declared_perm.append ih).trans ?_
    rw [List.append_assoc, List.append_assoc]
    exact (List.perm_append_comm_assoc ..).append_left _

/-- No function or class of a scope has the name of a variable or parameter of the scope. -/
theorem titles_ne_of_accepts {scope : Scope} (h : scope.Accepts (ps ++ declaredNames ss))
    (hx : ∃ t ∈ ps ++ ss.flatMap Stmt.variables, t.lexeme = x) :
    ∀ t ∈ ss.flatMap Stmt.titles, t.lexeme ≠ x := by
  have hperm := ((declaredNames_perm ss).append_left ps).map Token.lexeme
  have hnodup := hperm.nodup_iff.1 h.nodup
  rw [← List.append_assoc, List.map_append, List.nodup_append] at hnodup
  obtain ⟨u, hu, rfl⟩ := hx
  exact fun t ht he =>
    hnodup.2.2 _ (List.mem_map_of_mem hu) _ (List.mem_map_of_mem ht) he.symm

theorem Stmt.variables_resolve (around : Enclosing) :
    ∀ (s : Stmt) (Γ : List Scope), (s.resolve around Γ).tree.variables = s.variables
  | .missing, _ | .block _, _ | .classDecl .., _ | .expression _, _ | .print _, _
  | .returning .., _ | .varDecl .., _ | .function _, _ => rfl
  | .ifElse c t e, Γ => by
    simp only [Stmt.resolve, Stmt.variables]
    rw [t.variables_resolve around, e.variables_resolve around]
  | .whileLoop c b, Γ => by
    simp only [Stmt.resolve, Stmt.variables]
    rw [b.variables_resolve around]

theorem variables_resolveStmts (around : Enclosing) (ss : List Stmt) (Γ : List Scope) :
    (resolveStmts around Γ ss).tree.flatMap Stmt.variables = ss.flatMap Stmt.variables := by
  induction ss generalizing Γ with
  | nil => rfl
  | cons s ss ih =>
    simp only [resolveStmts, List.flatMap_cons]
    rw [Stmt.variables_resolve, ih]

/-! ## What is not renamed -/

section

variable {φ : Renaming} {around : Enclosing} {Γ : List Scope}

theorem Expr.resolve_bare (hΓ : φ.FreshIn Γ) (e : Expr) (hr : ∀ p ∈ e.references, φ.Admits p)
    (hf : (e.resolve around Γ).2 = []) :
    (e.resolve around Γ).1.bare.resolve around Γ = ((e.resolve around Γ).1, []) := by
  simpa only [Expr.rename_none, renameScopes_none] using
    @Expr.resolve_rename φ around Γ none hΓ e hr hf

theorem Stmt.resolve_bare (hΓ : φ.FreshIn Γ) (s : Stmt) (hr : ∀ p ∈ s.references, φ.Admits p)
    (hd : ∀ t ∈ s.declarations, t.lexeme ≠ φ.new) (hf : (s.resolve around Γ).findings = []) :
    (s.resolve around Γ).tree.bare.resolve around Γ =
      ⟨(s.resolve around Γ).tree, (s.resolve around Γ).scopes, []⟩ := by
  simpa only [Stmt.rename_none, renameScopes_none] using
    Stmt.resolve_rename s around none hΓ ⟨hr, hd, nofun⟩ hf

theorem resolveStmts_bare (hΓ : φ.FreshIn Γ) (ss : List Stmt)
    (hr : ∀ p ∈ stmtReferences ss, φ.Admits p) (hd : ∀ t ∈ stmtDeclarations ss, t.lexeme ≠ φ.new)
    (hf : (resolveStmts around Γ ss).findings = []) :
    resolveStmts around Γ (bareStmts (resolveStmts around Γ ss).tree) =
      ⟨(resolveStmts around Γ ss).tree, (resolveStmts around Γ ss).scopes, []⟩ := by
  simpa only [renameStmts_none, renameScopes_none] using
    resolveStmts_rename ss around none hΓ ⟨hr, hd, nofun⟩ hf

theorem Function.resolve_bare (hΓ : φ.FreshIn Γ) (f : Function)
    (hr : ∀ p ∈ f.references, φ.Admits p) (hd : ∀ t ∈ f.declarations, t.lexeme ≠ φ.new)
    (hf : (f.resolve around Γ).2 = []) :
    (f.resolve around Γ).1.bare.resolve around Γ = ((f.resolve around Γ).1, []) := by
  simpa only [Function.rename_none, renameScopes_none] using
    Function.resolve_rename f around none hΓ hr hd hf

theorem resolveMethods_bare (hΓ : φ.FreshIn Γ) (fs : List Function)
    (hr : ∀ p ∈ functionReferences fs, φ.Admits p)
    (hd : ∀ t ∈ methodDeclarations fs, t.lexeme ≠ φ.new)
    (hf : (resolveMethods around Γ fs).2 = []) :
    resolveMethods around Γ (bareMethods (resolveMethods around Γ fs).1) =
      ((resolveMethods around Γ fs).1, []) := by
  simpa only [renameMethods_none, renameScopes_none] using
    resolveMethods_rename fs around none hΓ hr hd hf

end

/-! ## The renamed program -/

variable {φ : Renaming}

theorem RenamesLocal.name {f f' : Function} (h : RenamesLocal φ D (.function f) (.function f')) :
    f'.name = f.name := by
  cases h <;> rfl

mutual
theorem Stmt.resolve_renamesLocal : ∀ (s : Stmt) (around : Enclosing) {Γ : List Scope} {t : Stmt},
    φ.FreshIn Γ → (∀ p ∈ s.references, φ.Admits p) → (∀ t ∈ s.declarations, t.lexeme ≠ φ.new) →
    (s.resolve around Γ).findings = [] →
    RenamesLocal φ D (.stmt (s.resolve around Γ).tree) (.stmt t) →
    t.bare.resolve around Γ = ⟨t, (s.resolve around Γ).scopes, []⟩
  | .missing, _, _, _, _, _, _, _, h | .expression _, _, _, _, _, _, _, _, h
  | .print _, _, _, _, _, _, _, _, h | .returning .., _, _, _, _, _, _, _, h
  | .varDecl .., _, _, _, _, _, _, _, h => by
    simp only [Stmt.resolve] at h
    cases h
  | .block ss, around, Γ, _, hΓ, hr, hd, hf, h => by
    simp only [Stmt.references, Stmt.declarations, Stmt.resolve] at hr hd hf h
    cases h with
    | «variable» hx hold =>
      rw [variables_resolveStmts] at hx
      have haccepts : Scope.Accepts [] ([] ++ declaredNames ss) := accepts_declaredNames hf
      have ht := titles_ne_of_accepts haccepts ⟨_, hx, hold⟩
      have hss := resolveStmts_rename ss around (some 0) hΓ.push ⟨hr, hd, fun _ => ht⟩ hf
      rw [show renameScopes φ (some 0) ([] :: Γ) = [] :: Γ from rfl] at hss
      simp only [Stmt.resolve, Stmt.bare, hss]
    | block h =>
      have hss := resolveStmts_renamesLocal ss around hΓ.push hr hd hf h
      simp only [Stmt.resolve, Stmt.bare, hss]
  | .classDecl name superclass fs, around, Γ, _, hΓ, hr, hd, hf, h => by
    simp only [Stmt.references, Stmt.declarations, List.forall_mem_cons, List.forall_mem_append,
      Stmt.resolve, List.append_eq_nil_iff] at hr hd hf h
    have hΓ' := hΓ.introduce hd.1
    generalize hms : (resolveMethods _ _ fs).1 = ms at h
    cases h with
    | method h =>
      have hfs := resolveMethods_renamesLocal fs _ (hΓ'.aroundMethods superclass.isSome) hr.2 hd.2
        hf.2 hms h
      cases superclass with
      | none =>
        simp only [Stmt.resolve, Stmt.bare, Option.map_none, hfs, hf.1.1, Option.getD_none,
          List.append_nil]
      | some r =>
        simp only [Option.toList_some, List.map_cons, List.map_nil, List.forall_mem_cons] at hr
        have hparent := Reference.resolveSuperclass_rename hΓ' hd.1 hr.1.1 hf.1.2 none
        rw [renameScopes_none, Reference.rename_none] at hparent
        simp only [Option.isSome_some, ↓reduceIte] at hfs
        simp only [Stmt.resolve, Stmt.bare, Option.map_some, Option.isSome_some, ↓reduceIte,
          hparent, hfs, hf.1.1, Option.getD_some, List.append_nil]
  | .function f, around, Γ, _, hΓ, hr, hd, hf, h => by
    simp only [Stmt.references, Stmt.declarations, List.forall_mem_cons, Stmt.resolve,
      List.append_eq_nil_iff] at hr hd hf h
    cases h with
    | function h =>
      have hf' := Function.resolve_renamesLocal f _ (hΓ.introduce hd.1) hr hd.2 hf.2 h
      simp only [Stmt.resolve, Stmt.bare, Function.name_bare, h.name, Function.name_resolve, hf',
        hf.1, List.append_nil]
  | .ifElse c t e, around, Γ, _, hΓ, hr, hd, hf, h => by
    simp only [Stmt.references, Stmt.declarations, List.forall_mem_append, Stmt.resolve,
      List.append_eq_nil_iff] at hr hd hf h
    have hΓ' : φ.FreshIn (t.resolve around Γ).scopes :=
      Stmt.scopes_resolve around t Γ ▸ hΓ.introduceEach fun u hu =>
        hd.1 u (t.mem_declarations u hu)
    have hc := Expr.resolve_bare hΓ c hr.1.1 hf.1.1
    cases h with
    | thenBranch h =>
      have ht := Stmt.resolve_renamesLocal t around hΓ hr.1.2 hd.1 hf.1.2 h
      have he := Stmt.resolve_bare hΓ' e hr.2 hd.2 hf.2
      simp only [Stmt.resolve, Stmt.bare, hc, ht, he, List.append_nil]
    | elseBranch h =>
      have ht := Stmt.resolve_bare hΓ t hr.1.2 hd.1 hf.1.2
      have he := Stmt.resolve_renamesLocal e around hΓ' hr.2 hd.2 hf.2 h
      simp only [Stmt.resolve, Stmt.bare, hc, ht, he, List.append_nil]
  | .whileLoop c b, around, Γ, _, hΓ, hr, hd, hf, h => by
    simp only [Stmt.references, Stmt.declarations, List.forall_mem_append, Stmt.resolve,
      List.append_eq_nil_iff] at hr hd hf h
    have hc := Expr.resolve_bare hΓ c hr.1 hf.1
    cases h with
    | whileBody h =>
      have hb := Stmt.resolve_renamesLocal b around hΓ hr.2 hd hf.2 h
      simp only [Stmt.resolve, Stmt.bare, hc, hb, List.append_nil]
theorem Function.resolve_renamesLocal : ∀ (f : Function) (around : Enclosing) {Γ : List Scope}
    {g : Function}, φ.FreshIn Γ → (∀ p ∈ f.references, φ.Admits p) →
    (∀ t ∈ f.declarations, t.lexeme ≠ φ.new) → (f.resolve around Γ).2 = [] →
    RenamesLocal φ D (.function (f.resolve around Γ).1) (.function g) →
    g.bare.resolve around Γ = (g, [])
  | .mk name ps ss, around, Γ, _, hΓ, hr, hd, hf, h => by
    have haccepts := accepts_body hf
    have hfs := hf
    have hall := Scope.introduceAll_fst ps ([] :: Γ)
    simp only [Function.references, Function.declarations, List.forall_mem_append] at hr hd
    simp only [Function.resolve, List.append_eq_nil_iff] at hfs h
    have hΓ' : φ.FreshIn (Scope.introduceAll ps ([] :: Γ)).1 :=
      hall ▸ hΓ.push.introduceEach hd.1
    cases h with
    | parameter hx hold =>
      rw [variables_resolveStmts] at hx
      have ht := titles_ne_of_accepts haccepts ⟨_, hx, hold⟩
      have hss := resolveStmts_rename ss around (some 0) hΓ' ⟨hr, hd.2, fun _ => ht⟩ hfs.2
      have hinner : renameScopes φ (some 0) ([] :: Γ) = [] :: Γ := rfl
      have := resolve_function_rename name hinner hΓ hd.1 hf hss
      simpa only [Function.bare, decide_true] using this
    | body h =>
      have hss := resolveStmts_renamesLocal ss around hΓ' hr hd.2 hfs.2 h
      simp only [Function.bare, Function.resolve, hss, hfs.1, List.append_nil]
theorem resolveMethods_renamesLocal : ∀ (fs : List Function) (around : Enclosing)
    {Γ : List Scope} {gs hs : List Function} {g g' : Function}, φ.FreshIn Γ →
    (∀ p ∈ functionReferences fs, φ.Admits p) → (∀ t ∈ methodDeclarations fs, t.lexeme ≠ φ.new) →
    (resolveMethods around Γ fs).2 = [] → (resolveMethods around Γ fs).1 = gs ++ g :: hs →
    RenamesLocal φ D (.function g) (.function g') →
    resolveMethods around Γ (bareMethods (gs ++ g' :: hs)) = (gs ++ g' :: hs, [])
  | [], _, _, _, _, _, _, _, _, _, _, he, _ => by
    simp [resolveMethods] at he
  | f :: fs, around, Γ, gs, hs, g, g', hΓ, hr, hd, hf, he, h => by
    simp only [functionReferences, methodDeclarations, List.forall_mem_append, resolveMethods,
      List.append_eq_nil_iff] at hr hd hf he
    cases gs with
    | nil =>
      obtain ⟨rfl, rfl⟩ := List.cons.inj he
      have hfirst := Function.resolve_renamesLocal f _ hΓ hr.1 hd.1 hf.1 h
      have hrest := resolveMethods_bare hΓ fs hr.2 hd.2 hf.2
      simp only [List.nil_append, resolveMethods, bareMethods, Function.name_bare, h.name,
        Function.name_resolve, hfirst, hrest, List.append_nil]
    | cons k gs =>
      obtain ⟨rfl, htail⟩ := List.cons.inj he
      have hfirst := Function.resolve_bare hΓ f hr.1 hd.1 hf.1
      have hrest := resolveMethods_renamesLocal fs around hΓ hr.2 hd.2 hf.2 htail h
      simp only [List.cons_append, resolveMethods, bareMethods, Function.name_bare,
        Function.name_resolve, hfirst, hrest, List.append_nil]
theorem resolveStmts_renamesLocal : ∀ (ss : List Stmt) (around : Enclosing) {Γ : List Scope}
    {ts : List Stmt}, φ.FreshIn Γ → (∀ p ∈ stmtReferences ss, φ.Admits p) →
    (∀ t ∈ stmtDeclarations ss, t.lexeme ≠ φ.new) → (resolveStmts around Γ ss).findings = [] →
    RenamesLocal φ D (.stmts (resolveStmts around Γ ss).tree) (.stmts ts) →
    resolveStmts around Γ (bareStmts ts) = ⟨ts, (resolveStmts around Γ ss).scopes, []⟩
  | [], _, _, _, _, _, _, _, h => by
    simp only [resolveStmts] at h
    cases h
  | s :: ss, around, Γ, _, hΓ, hr, hd, hf, h => by
    simp only [stmtReferences, stmtDeclarations, List.forall_mem_append, resolveStmts,
      List.append_eq_nil_iff] at hr hd hf h
    have hΓ' : φ.FreshIn (s.resolve around Γ).scopes :=
      Stmt.scopes_resolve around s Γ ▸ hΓ.introduceEach fun u hu =>
        hd.1 u (s.mem_declarations u hu)
    cases h with
    | head h =>
      have hs := Stmt.resolve_renamesLocal s around hΓ hr.1 hd.1 hf.1 h
      have hss := resolveStmts_bare hΓ' ss hr.2 hd.2 hf.2
      simp only [resolveStmts, bareStmts, hs, hss, List.append_nil]
    | tail h =>
      have hs := Stmt.resolve_bare hΓ s hr.1 hd.1 hf.1
      have hss := resolveStmts_renamesLocal ss around hΓ' hr.2 hd.2 hf.2 h
      simp only [resolveStmts, bareStmts, hs, hss, List.append_nil]
end

/-! ## Hops -/

/-- The references of a tree in order, each with its kind and its hops. -/
def hopsOf (references : List (ReferenceKind × Reference)) : List (ReferenceKind × Option Nat) :=
  references.map fun (kind, r) => (kind, r.hops)

theorem hopsOf_append (rs rs' : List (ReferenceKind × Reference)) :
    hopsOf (rs ++ rs') = hopsOf rs ++ hopsOf rs' := List.map_append

theorem hopsOf_cons (kind : ReferenceKind) (r : Reference)
    (rs : List (ReferenceKind × Reference)) :
    hopsOf ((kind, r) :: rs) = (kind, r.hops) :: hopsOf rs := rfl

mutual
theorem Expr.hopsOf_rename (inside : Option Nat) :
    ∀ e : Expr, hopsOf (e.rename φ inside).references = hopsOf e.references
  | .missing | .literal _ | .super .. | .this _ | .variable _ => by
    simp only [Expr.rename, Expr.references, hopsOf_cons, Reference.rename]
  | .assign _ e => by
    simp only [Expr.rename, Expr.references, hopsOf_cons, Reference.rename,
      Expr.hopsOf_rename inside e]
  | .get e _ | .grouping e | .unary _ e => by
    simp only [Expr.rename, Expr.references, Expr.hopsOf_rename inside e]
  | .binary l _ r | .logical l _ r | .set l _ r => by
    simp only [Expr.rename, Expr.references, hopsOf_append, Expr.hopsOf_rename inside l,
      Expr.hopsOf_rename inside r]
  | .call f _ es => by
    simp only [Expr.rename, Expr.references, hopsOf_append, Expr.hopsOf_rename inside f,
      hopsOf_renameExprs inside es]
theorem hopsOf_renameExprs (inside : Option Nat) :
    ∀ es : List Expr, hopsOf (exprReferences (renameExprs φ inside es)) =
      hopsOf (exprReferences es)
  | [] => by simp only [renameExprs]
  | e :: es => by
    simp only [renameExprs, exprReferences, hopsOf_append, Expr.hopsOf_rename inside e,
      hopsOf_renameExprs inside es]
end

theorem Expr.hopsOf_rename_option (inside : Option Nat) (e : Option Expr) :
    hopsOf (Expr.optionReferences (e.map (·.rename φ inside))) =
      hopsOf (Expr.optionReferences e) := by
  cases e with
  | none => rfl
  | some e => exact e.hopsOf_rename inside

mutual
theorem Stmt.hopsOf_rename (inside : Option Nat) :
    ∀ s : Stmt, hopsOf (s.rename φ inside).references = hopsOf s.references
  | .missing => by simp only [Stmt.rename]
  | .block ss => by
    simp only [Stmt.rename, Stmt.references, hopsOf_renameStmts (deeper 1 inside) ss]
  | .classDecl _ superclass fs => by
    simp only [Stmt.rename, Stmt.references, hopsOf_append,
      hopsOf_renameMethods (deeper (if superclass.isSome then 2 else 1) inside) fs]
    cases superclass <;> rfl
  | .expression e | .print e => by
    simp only [Stmt.rename, Stmt.references, Expr.hopsOf_rename inside e]
  | .function f => by
    simp only [Stmt.rename, Stmt.references, Function.hopsOf_rename inside f]
  | .ifElse c t e => by
    simp only [Stmt.rename, Stmt.references, hopsOf_append, Expr.hopsOf_rename inside c,
      Stmt.hopsOf_rename inside t, Stmt.hopsOf_rename inside e]
  | .returning _ e | .varDecl _ e => by
    simp only [Stmt.rename, Stmt.references, Expr.hopsOf_rename_option inside e]
  | .whileLoop c b => by
    simp only [Stmt.rename, Stmt.references, hopsOf_append, Expr.hopsOf_rename inside c,
      Stmt.hopsOf_rename inside b]
theorem Function.hopsOf_rename (inside : Option Nat) :
    ∀ f : Function, hopsOf (f.rename φ inside).references = hopsOf f.references
  | .mk _ _ ss => by
    simp only [Function.rename, Function.references, hopsOf_renameStmts (deeper 1 inside) ss]
theorem hopsOf_renameMethods (inside : Option Nat) :
    ∀ fs : List Function, hopsOf (functionReferences (renameMethods φ inside fs)) =
      hopsOf (functionReferences fs)
  | [] => by simp only [renameMethods]
  | f :: fs => by
    simp only [renameMethods, functionReferences, hopsOf_append, Function.hopsOf_rename inside f,
      hopsOf_renameMethods inside fs]
theorem hopsOf_renameStmts (inside : Option Nat) :
    ∀ ss : List Stmt, hopsOf (stmtReferences (renameStmts φ inside ss)) = hopsOf (stmtReferences ss)
  | [] => by simp only [renameStmts]
  | s :: ss => by
    simp only [renameStmts, stmtReferences, hopsOf_append, Stmt.hopsOf_rename inside s,
      hopsOf_renameStmts inside ss]
end

theorem functionReferences_append (fs gs : List Function) :
    functionReferences (fs ++ gs) = functionReferences fs ++ functionReferences gs := by
  induction fs with
  | nil => rfl
  | cons f fs ih => simp only [List.cons_append, functionReferences, ih, List.append_assoc]

/-- No reference gets other hops. -/
theorem RenamesLocal.hopsOf (h : RenamesLocal φ D n n') :
    hopsOf n'.references = hopsOf n.references := by
  induction h with
  | «variable» => exact hopsOf_renameStmts (some 0) _
  | parameter => exact hopsOf_renameStmts (some 0) _
  | block _ ih | body _ ih | function _ ih => exact ih
  | method _ ih =>
    simp only [Node.references, Stmt.references, functionReferences_append, functionReferences,
      hopsOf_append] at ih ⊢
    rw [ih]
  | thenBranch _ ih | elseBranch _ ih | whileBody _ ih =>
    simp only [Node.references, Stmt.references, hopsOf_append] at ih ⊢
    rw [ih]
  | head _ ih | tail _ ih =>
    simp only [Node.references, stmtReferences, hopsOf_append] at ih ⊢
    rw [ih]

end LoxLang
