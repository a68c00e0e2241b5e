import LoxLang.Proofs.Renaming.Acceptance
import LoxLang.Proofs.Renaming.Alike

/-!
# Counterparts of nodes

A resolved program with one local declaration renamed corresponds to the program node by node
(`Stmt.renamed_of_renamesLocal`); what stands outside of the scope of the declaration corresponds to
itself (`Stmt.renamed_self`).
-/

namespace LoxLang

variable {φ : Renaming}

theorem eq_of_mem_zip_self {l : List α} (h : (a, b) ∈ l.zip l) : a = b := by
  induction l with
  | nil => cases h
  | cons c l ih =>
    rcases List.mem_cons.1 h with h | h
    · cases h; rfl
    · exact ih h

/-! ## Outside of the scope -/

mutual
theorem Expr.renamed_self : ∀ e : Expr, Renamed φ none (.expr e) (.expr e)
  | .missing => .noExpr
  | .assign r e => by
    have h : Renamed φ none (.expr (.assign r e)) _ := .assign nofun e.renamed_self
    rwa [Reference.rename_none] at h
  | .binary l _ r => .binary l.renamed_self r.renamed_self
  | .call f _ es => .call f.renamed_self (renamed_self_exprs es)
  | .get e _ => .get e.renamed_self
  | .grouping e => .grouping e.renamed_self
  | .literal _ => .literal
  | .logical l _ r => .logical l.renamed_self r.renamed_self
  | .set e _ v => .set e.renamed_self v.renamed_self
  | .super .. => .super
  | .this _ => .this nofun
  | .unary _ e => .unary e.renamed_self
  | .variable r => by
    have h : Renamed φ none (.expr (.variable r)) _ := .variable nofun
    rwa [Reference.rename_none] at h
theorem renamed_self_exprs : ∀ es : List Expr, Renamed φ none (.exprs es) (.exprs es)
  | [] => .noExprs
  | e :: es => .exprs e.renamed_self (renamed_self_exprs es)
end

mutual
theorem Stmt.renamed_self : ∀ s : Stmt, Renamed φ none (.stmt s) (.stmt s)
  | .missing => .noStmt
  | .block ss => .block .deeper (renamed_self_stmts ss)
  | .classDecl name superclass fs => by
    have h : Renamed φ none (.stmt (.classDecl name superclass fs)) _ :=
      .classDecl nofun nofun (fun _ _ => nofun) rfl (renamed_self_methods fs)
    simpa using h
  | .expression e => .expression e.renamed_self
  | .function f => .function nofun nofun f.renamed_self
  | .ifElse c t e => .ifElse c.renamed_self t.renamed_self e.renamed_self
  | .print e => .print e.renamed_self
  | .returning _ none => .returnNil
  | .returning _ (some e) => .returnValue e.renamed_self
  | .varDecl name none => by
    have h : Renamed φ none (.stmt (.varDecl name none)) _ := .varNil nofun
    simpa using h
  | .varDecl name (some e) => by
    have h : Renamed φ none (.stmt (.varDecl name (some e))) _ := .varValue nofun e.renamed_self
    simpa using h
  | .whileLoop c b => .whileLoop c.renamed_self b.renamed_self
theorem Function.renamed_self : ∀ f : Function, Renamed φ none (.function f) (.function f)
  | .mk name ps ss => by
    have h : Renamed φ none (.function (.mk name ps ss)) _ :=
      .body .deeper nofun (renamed_self_stmts ss)
    simpa [deeper] using h
theorem renamed_self_methods : ∀ (fs : List Function) (f f' : Function), (f, f') ∈ fs.zip fs →
    Renamed φ none (.function f) (.function f')
  | [], _, _, hf => nomatch hf
  | g :: fs, f, f', hf => by
    rcases List.mem_cons.1 hf with hf | hf
    · rw [(Prod.mk.inj hf).1, (Prod.mk.inj hf).2]
      exact g.renamed_self
    · exact renamed_self_methods fs f f' hf
theorem renamed_self_stmts : ∀ ss : List Stmt, Renamed φ none (.stmts ss) (.stmts ss)
  | [] => .noStmts
  | s :: ss => .stmts s.renamed_self (renamed_self_stmts ss)
end

/-! ## Inside of the scope -/

section

variable {around : Enclosing} {Γ : List Scope} {inside : Option Nat}

mutual
theorem Expr.renamed_resolve : ∀ e : Expr, (∀ p ∈ e.references, φ.Admits p) →
    Renamed φ inside (.expr (e.resolve around Γ).1)
      (.expr ((e.resolve around Γ).1.rename φ inside))
  | .missing, _ => by
    simp only [Expr.resolve, Expr.rename]
    exact .noExpr
  | .literal _, _ => by
    simp only [Expr.resolve, Expr.rename]
    exact .literal
  | .assign r e, ha => by
    simp only [Expr.references, List.forall_mem_cons] at ha
    simp only [Expr.resolve, Expr.rename]
    exact .assign (fun _ => ha.1.fresh) (e.renamed_resolve ha.2)
  | .binary l _ r, ha => by
    simp only [Expr.references, List.forall_mem_append] at ha
    simp only [Expr.resolve, Expr.rename]
    exact .binary (l.renamed_resolve ha.1) (r.renamed_resolve ha.2)
  | .call f _ es, ha => by
    simp only [Expr.references, List.forall_mem_append] at ha
    simp only [Expr.resolve, Expr.rename]
    exact .call (f.renamed_resolve ha.1) (renamed_resolveExprs es ha.2)
  | .get e _, ha => by
    simp only [Expr.references] at ha
    simp only [Expr.resolve, Expr.rename]
    exact .get (e.renamed_resolve ha)
  | .grouping e, ha => by
    simp only [Expr.references] at ha
    simp only [Expr.resolve, Expr.rename]
    exact .grouping (e.renamed_resolve ha)
  | .logical l _ r, ha => by
    simp only [Expr.references, List.forall_mem_append] at ha
    simp only [Expr.resolve, Expr.rename]
    exact .logical (l.renamed_resolve ha.1) (r.renamed_resolve ha.2)
  | .set e _ v, ha => by
    simp only [Expr.references, List.forall_mem_append] at ha
    simp only [Expr.resolve, Expr.rename]
    exact .set (e.renamed_resolve ha.1) (v.renamed_resolve ha.2)
  | .super k _, _ => by
    simp only [Expr.resolve, Expr.rename]
    exact .super
  | .this k, ha => by
    simp only [Expr.references, List.forall_mem_singleton] at ha
    have hk : k.name.lexeme = "this" := ha.unresolved.keyword _ rfl
    simp only [Expr.resolve]
    split <;> simp only [Expr.rename] <;> exact .this fun _ => hk
  | .unary _ e, ha => by
    simp only [Expr.references] at ha
    simp only [Expr.resolve, Expr.rename]
    exact .unary (e.renamed_resolve ha)
  | .variable r, ha => by
    simp only [Expr.references, List.forall_mem_singleton] at ha
    simp only [Expr.resolve, Expr.rename]
    exact .variable fun _ => ha.fresh
theorem renamed_resolveExprs : ∀ es : List Expr, (∀ p ∈ exprReferences es, φ.Admits p) →
    Renamed φ inside (.exprs (resolveExprs around Γ es).1)
      (.exprs (renameExprs φ inside (resolveExprs around Γ es).1))
  | [], _ => by
    simp only [resolveExprs, renameExprs]
    exact .noExprs
  | e :: es, ha => by
    simp only [exprReferences, List.forall_mem_append] at ha
    simp only [resolveExprs, renameExprs]
    exact .exprs (e.renamed_resolve ha.1) (renamed_resolveExprs es ha.2)
end

end

mutual
theorem Stmt.renamed_resolve : ∀ (s : Stmt) (around : Enclosing) (Γ : List Scope)
    (inside : Option Nat), φ.Suits inside s.references s.declarations s.titles →
    Renamed φ inside (.stmt (s.resolve around Γ).tree)
      (.stmt ((s.resolve around Γ).tree.rename φ inside))
  | .missing, _, _, _, _ => by
    simp only [Stmt.resolve, Stmt.rename]
    exact .noStmt
  | .block ss, around, Γ, inside, hs => by
    have hr := hs.references
    have hd := hs.declarations
    simp only [Stmt.references, Stmt.declarations] at hr hd
    simp only [Stmt.resolve, Stmt.rename]
    exact .block .deeper (renamed_resolveStmts ss around _ _
      ⟨hr, hd, fun h0 => absurd h0 (deeper_ne_zero 0 inside)⟩)
  | .classDecl name superclass fs, around, Γ, inside, hs => by
    obtain ⟨hr, hd, ht⟩ := hs
    simp only [Stmt.references, List.forall_mem_append, Stmt.declarations,
      List.forall_mem_cons] at hr hd
    have hold : inside = some 0 → name.lexeme ≠ φ.old := fun h0 => ht h0 _ List.mem_cons_self
    have hmethods (kind : ClassKind) (Δ : List Scope) (n : Nat) :=
      renamed_resolveMethods fs ⟨around.function, some kind⟩ Δ (deeper n inside) hr.2 hd.2
    cases superclass with
    | none =>
      obtain ⟨hlen, hfs⟩ := hmethods .base _ 1
      simp only [Stmt.resolve, Stmt.rename]
      exact .classDecl (fun _ => hd.1) hold nofun hlen hfs
    | some r =>
      simp only [Option.toList_some, List.map_cons, List.map_nil, List.forall_mem_cons] at hr
      obtain ⟨hlen, hfs⟩ := hmethods .derived _ 2
      simp only [Stmt.resolve, Stmt.rename]
      exact .classDecl (fun _ => hd.1) hold (by rintro _ ⟨⟩ -; exact hr.1.1.fresh) hlen hfs
  | .expression e, around, Γ, inside, hs => by
    have hr := hs.references
    simp only [Stmt.references] at hr
    simp only [Stmt.resolve, Stmt.rename]
    exact .expression (e.renamed_resolve hr)
  | .function f, around, Γ, inside, hs => by
    obtain ⟨hr, hd, ht⟩ := hs
    simp only [Stmt.references, Stmt.declarations, List.forall_mem_cons] at hr hd
    have hold : inside = some 0 → f.name.lexeme ≠ φ.old := fun h0 => ht h0 _ List.mem_cons_self
    simp only [Stmt.resolve, Stmt.rename]
    rw [← Function.name_resolve] at hd hold
    exact .function (fun _ => hd.1) hold (f.renamed_resolve _ _ _ hr hd.2)
  | .ifElse c t e, around, Γ, inside, hs => by
    have hr := hs.references
    simp only [Stmt.references, List.forall_mem_append] at hr
    simp only [Stmt.resolve, Stmt.rename]
    refine .ifElse (c.renamed_resolve hr.1.1) (t.renamed_resolve _ _ _ ⟨hr.1.2, ?_, ?_⟩)
      (e.renamed_resolve _ _ _ ⟨hr.2, ?_, ?_⟩)
    · exact fun u hu => hs.declarations u (by simp [Stmt.declarations, hu])
    · exact fun h0 u hu => hs.titles h0 u (by simp [Stmt.titles, hu])
    · exact fun u hu => hs.declarations u (by simp [Stmt.declarations, hu])
    · exact fun h0 u hu => hs.titles h0 u (by simp [Stmt.titles, hu])
  | .print e, around, Γ, inside, hs => by
    have hr := hs.references
    simp only [Stmt.references] at hr
    simp only [Stmt.resolve, Stmt.rename]
    exact .print (e.renamed_resolve hr)
  | .returning _ none, around, Γ, inside, hs => by
    simp only [Stmt.resolve, Expr.resolveOption, Stmt.rename]
    exact .returnNil
  | .returning _ (some e), around, Γ, inside, hs => by
    simp only [Stmt.resolve, Expr.resolveOption, Stmt.rename]
    exact .returnValue (e.renamed_resolve hs.references)
  | .varDecl name none, around, Γ, inside, hs => by
    have hd := hs.declarations
    simp only [Stmt.declarations, List.forall_mem_singleton] at hd
    simp only [Stmt.resolve, Expr.resolveOption, Stmt.rename]
    exact .varNil fun _ => hd
  | .varDecl name (some e), around, Γ, inside, hs => by
    have hd := hs.declarations
    simp only [Stmt.declarations, List.forall_mem_singleton] at hd
    simp only [Stmt.resolve, Expr.resolveOption, Stmt.rename]
    exact .varValue (fun _ => hd) (e.renamed_resolve hs.references)
  | .whileLoop c b, around, Γ, inside, hs => by
    have hr := hs.references
    simp only [Stmt.references, List.forall_mem_append] at hr
    simp only [Stmt.resolve, Stmt.rename]
    exact .whileLoop (c.renamed_resolve hr.1)
      (b.renamed_resolve _ _ _ ⟨hr.2, hs.declarations, hs.titles⟩)
theorem Function.renamed_resolve : ∀ (f : Function) (around : Enclosing) (Γ : List Scope)
    (inside : Option Nat), (∀ p ∈ f.references, φ.Admits p) →
    (∀ t ∈ f.declarations, t.lexeme ≠ φ.new) →
    Renamed φ inside (.function (f.resolve around Γ).1)
      (.function ((f.resolve around Γ).1.rename φ inside))
  | .mk name ps ss, around, Γ, inside, hr, hd => by
    simp only [Function.declarations, List.forall_mem_append] at hd
    simp only [Function.references] at hr
    have hss := renamed_resolveStmts ss around (Scope.introduceAll ps ([] :: Γ)).1
      (deeper 1 inside) ⟨hr, hd.2, fun h0 => absurd h0 (deeper_ne_zero 0 inside)⟩
    have hbody : Renamed φ inside (.function (.mk name ps _)) _ := .body .deeper (fun _ => hd.1) hss
    simpa [Function.resolve, Function.rename, deeper_ne_zero] using hbody
theorem renamed_resolveMethods : ∀ (fs : List Function) (around : Enclosing) (Γ : List Scope)
    (inside : Option Nat), (∀ p ∈ functionReferences fs, φ.Admits p) →
    (∀ t ∈ methodDeclarations fs, t.lexeme ≠ φ.new) →
    (resolveMethods around Γ fs).1.length =
        (renameMethods φ inside (resolveMethods around Γ fs).1).length ∧
      ∀ f f', (f, f') ∈ (resolveMethods around Γ fs).1.zip
          (renameMethods φ inside (resolveMethods around Γ fs).1) →
        Renamed φ inside (.function f) (.function f')
  | [], _, _, _, _, _ => by
    simp [resolveMethods, renameMethods]
  | g :: fs, around, Γ, inside, hr, hd => by
    simp only [functionReferences, methodDeclarations, List.forall_mem_append] at hr hd
    obtain ⟨hlen, hfs⟩ := renamed_resolveMethods fs around Γ inside hr.2 hd.2
    have hg := g.renamed_resolve ⟨some (.ofMethod g.name.lexeme), around.classKind⟩ Γ inside
      hr.1 hd.1
    simp only [resolveMethods, renameMethods, List.length_cons, hlen, List.zip_cons_cons,
      List.mem_cons, true_and]
    rintro f f' (hf | hf)
    · cases hf
      exact hg
    · exact hfs f f' hf
theorem renamed_resolveStmts : ∀ (ss : List Stmt) (around : Enclosing) (Γ : List Scope)
    (inside : Option Nat),
    φ.Suits inside (stmtReferences ss) (stmtDeclarations ss) (ss.flatMap Stmt.titles) →
    Renamed φ inside (.stmts (resolveStmts around Γ ss).tree)
      (.stmts (renameStmts φ inside (resolveStmts around Γ ss).tree))
  | [], _, _, _, _ => by
    simp only [resolveStmts, renameStmts]
    exact .noStmts
  | s :: ss, around, Γ, inside, hs => by
    simp only [stmtReferences, stmtDeclarations, List.flatMap_cons] at hs
    obtain ⟨hs, hss⟩ := hs.append
    simp only [resolveStmts, renameStmts]
    exact .stmts (s.renamed_resolve _ _ _ hs) (renamed_resolveStmts ss _ _ _ hss)
end

/-! ## The whole program -/

/-- A class in which one method is replaced by its counterpart. -/
theorem Renamed.method {f f' : Function} (hf : Renamed φ none (.function f) (.function f')) :
    Renamed φ none (.stmt (.classDecl name superclass (fs ++ f :: gs)))
      (.stmt (.classDecl name superclass (fs ++ f' :: gs))) := by
  have hfs (g g' : Function) (hg : (g, g') ∈ (fs ++ f :: gs).zip (fs ++ f' :: gs)) :
      Renamed φ none (.function g) (.function g') := by
    rw [List.zip_append rfl, List.zip_cons_cons, List.mem_append, List.mem_cons] at hg
    rcases hg with hg | hg | hg
    · exact eq_of_mem_zip_self hg ▸ g.renamed_self
    · cases hg
      exact hf
    · exact eq_of_mem_zip_self hg ▸ g.renamed_self
  have h : Renamed φ none (.stmt (.classDecl name superclass (fs ++ f :: gs))) _ :=
    .classDecl nofun nofun (fun _ _ => nofun) (by simp) hfs
  simpa using h

/-! The proofs follow the walk of the resolver, which finds that the functions and classes of the
scope have other names than the renamed declaration. -/

mutual
theorem Stmt.renamed_of_renamesLocal : ∀ (s : Stmt) (around : Enclosing) {Γ : List Scope}
    {t : Stmt}, (∀ p ∈ s.references, φ.Admits p) → (∀ t ∈ s.declarations, t.lexeme ≠ φ.new) →
    (s.resolve around Γ).findings = [] →
    RenamesLocal φ D (.stmt (s.resolve around Γ).tree) (.stmt t) →
    Renamed φ none (.stmt (s.resolve around Γ).tree) (.stmt t)
  | .missing, _, _, _, _, _, _, h | .expression _, _, _, _, _, _, _, h
  | .print _, _, _, _, _, _, _, h | .returning .., _, _, _, _, _, _, h
  | .varDecl .., _, _, _, _, _, _, h => by
    simp only [Stmt.resolve] at h
    cases h
  | .block ss, around, Γ, _, hr, hd, hf, h => by
    simp only [Stmt.references, Stmt.declarations, Stmt.resolve] at hr hd hf h ⊢
    cases h with
    | «variable» hx hold =>
      rw [variables_resolveStmts] at hx
      have haccepts : Scope.Accepts [] ([] ++ declaredNames ss) := accepts_declaredNames hf
      have ht := titles_ne_of_accepts haccepts ⟨_, hx, hold⟩
      exact .block .declares (renamed_resolveStmts ss around _ _ ⟨hr, hd, fun _ => ht⟩)
    | block h => exact .block .deeper (renamed_of_renamesLocal_stmts ss around hr hd hf h)
  | .classDecl name superclass fs, around, Γ, _, hr, hd, hf, h => by
    simp only [Stmt.references, Stmt.declarations, List.forall_mem_cons, List.forall_mem_append,
      Stmt.resolve, List.append_eq_nil_iff] at hr hd hf h ⊢
    generalize hms : (resolveMethods _ _ fs).1 = ms at h ⊢
    cases h with
    | method h => exact .method (renamed_of_renamesLocal_methods fs _ hr.2 hd.2 hf.2 hms h)
  | .function f, around, Γ, _, hr, hd, hf, h => by
    simp only [Stmt.references, Stmt.declarations, List.forall_mem_cons, Stmt.resolve,
      List.append_eq_nil_iff] at hr hd hf h ⊢
    cases h with
    | function h =>
      exact .function nofun nofun (f.renamed_of_renamesLocal _ hr hd.2 hf.2 h)
  | .ifElse c t e, around, Γ, _, hr, hd, hf, h => by
    simp only [Stmt.references, Stmt.declarations, List.forall_mem_append, Stmt.resolve,
      List.append_eq_nil_iff] at hr hd hf h ⊢
    cases h with
    | thenBranch h =>
      exact .ifElse (Expr.renamed_self _)
        (t.renamed_of_renamesLocal around hr.1.2 hd.1 hf.1.2 h) (Stmt.renamed_self _)
    | elseBranch h =>
      exact .ifElse (Expr.renamed_self _) (Stmt.renamed_self _)
        (e.renamed_of_renamesLocal around hr.2 hd.2 hf.2 h)
  | .whileLoop c b, around, Γ, _, hr, hd, hf, h => by
    simp only [Stmt.references, Stmt.declarations, List.forall_mem_append, Stmt.resolve,
      List.append_eq_nil_iff] at hr hd hf h ⊢
    cases h with
    | whileBody h =>
      exact .whileLoop (Expr.renamed_self _) (b.renamed_of_renamesLocal around hr.2 hd hf.2 h)
theorem Function.renamed_of_renamesLocal : ∀ (f : Function) (around : Enclosing) {Γ : List Scope}
    {g : Function}, (∀ p ∈ f.references, φ.Admits p) → (∀ t ∈ f.declarations, t.lexeme ≠ φ.new) →
    (f.resolve around Γ).2 = [] →
    RenamesLocal φ D (.function (f.resolve around Γ).1) (.function g) →
    Renamed φ none (.function (f.resolve around Γ).1) (.function g)
  | .mk name ps ss, around, Γ, _, hr, hd, hf, h => by
    have haccepts := accepts_body hf
    simp only [Function.references, Function.declarations, List.forall_mem_append] at hr hd
    simp only [Function.resolve, List.append_eq_nil_iff] at hf h ⊢
    cases h with
    | parameter hx hold =>
      rw [variables_resolveStmts] at hx
      have ht := titles_ne_of_accepts haccepts ⟨_, hx, hold⟩
      have hss := renamed_resolveStmts ss around (Scope.introduceAll ps ([] :: Γ)).1 (some 0)
        ⟨hr, hd.2, fun _ => ht⟩
      have hbody : Renamed φ none (.function (.mk name ps _)) _ :=
        .body .declares (fun _ => hd.1) hss
      simpa only [decide_true] using hbody
    | body h =>
      have hss := renamed_of_renamesLocal_stmts ss around hr hd.2 hf.2 h
      have henters : Enters none none := .deeper
      have hbody : Renamed φ none (.function (.mk name ps _)) _ := .body henters (fun _ => hd.1) hss
      simpa using hbody
theorem renamed_of_renamesLocal_methods : ∀ (fs : List Function) (around : Enclosing)
    {Γ : List Scope} {gs hs : List Function} {g g' : Function},
    (∀ p ∈ functionReferences fs, φ.Admits p) → (∀ t ∈ methodDeclarations fs, t.lexeme ≠ φ.new) →
    (resolveMethods around Γ fs).2 = [] → (resolveMethods around Γ fs).1 = gs ++ g :: hs →
    RenamesLocal φ D (.function g) (.function g') → Renamed φ none (.function g) (.function g')
  | [], _, _, _, _, _, _, _, _, _, he, _ => by
    simp [resolveMethods] at he
  | f :: fs, around, Γ, gs, hs, g, g', hr, hd, hf, he, h => by
    simp only [functionReferences, methodDeclarations, List.forall_mem_append, resolveMethods,
      List.append_eq_nil_iff] at hr hd hf he
    cases gs with
    | nil =>
      obtain ⟨rfl, -⟩ := List.cons.inj he
      exact f.renamed_of_renamesLocal _ hr.1 hd.1 hf.1 h
    | cons k gs =>
      obtain ⟨-, htail⟩ := List.cons.inj he
      exact renamed_of_renamesLocal_methods fs around hr.2 hd.2 hf.2 htail h
theorem renamed_of_renamesLocal_stmts : ∀ (ss : List Stmt) (around : Enclosing) {Γ : List Scope}
    {ts : List Stmt}, (∀ p ∈ stmtReferences ss, φ.Admits p) →
    (∀ t ∈ stmtDeclarations ss, t.lexeme ≠ φ.new) → (resolveStmts around Γ ss).findings = [] →
    RenamesLocal φ D (.stmts (resolveStmts around Γ ss).tree) (.stmts ts) →
    Renamed φ none (.stmts (resolveStmts around Γ ss).tree) (.stmts ts)
  | [], _, _, _, _, _, _, h => by
    simp only [resolveStmts] at h
    cases h
  | s :: ss, around, Γ, _, hr, hd, hf, h => by
    simp only [stmtReferences, stmtDeclarations, List.forall_mem_append, resolveStmts,
      List.append_eq_nil_iff] at hr hd hf h ⊢
    cases h with
    | head h =>
      exact .stmts (s.renamed_of_renamesLocal around hr.1 hd.1 hf.1 h) (renamed_self_stmts _)
    | tail h =>
      exact .stmts (Stmt.renamed_self _)
        (renamed_of_renamesLocal_stmts ss around hr.2 hd.2 hf.2 h)
end

end LoxLang
