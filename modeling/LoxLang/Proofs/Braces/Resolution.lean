import LoxLang.Proofs.Braces.Trees

/-!
# Resolution with added braces

A program with braces around one of its statements is accepted if the program was, and each
reference in the statement that is bound outside of it gets one more hop (`resolve_atStatement`).
-/

namespace LoxLang.Braces

/-! ## Scopes -/

/-- The scopes around a node without the braces and with them, so many scopes inside the braces. The
scope around the braces is not one that declares `super`. -/
inductive Beneath : Nat → List Scope → List Scope → Prop where
  | here : Scope.redeclares "super" Γ = false → Beneath 0 Γ ([] :: Γ)
  | inner : Beneath k Γ Γ' → Beneath (k + 1) (scope :: Γ) (scope :: Γ')

section

variable {k : Nat} {Γ Γ' : List Scope} {around : Enclosing}

namespace Beneath

theorem distance? (h : Beneath k Γ Γ') (x : String) :
    Scope.distance? Γ' x = (Scope.distance? Γ x).map (liftHops (some k)) := by
  induction h with
  | here =>
    rw [Scope.distance?_cons, if_neg (by simp [Bindings.contains, Bindings.get?])]
    rfl
  | inner _ ih =>
    rw [Scope.distance?_cons, Scope.distance?_cons, ih]
    split
    · rfl
    · rw [Option.map_map, Option.map_map]
      congr 1
      funext d
      simp only [Function.comp_apply, liftHops]
      grind

/-- No `super` is bound to the scope around the braces. -/
theorem distance?_super (h : Beneath k Γ Γ') : Scope.distance? Γ "super" ≠ some k := by
  induction h with
  | @here Γ hsuper =>
    cases Γ with
    | nil => simp [Scope.distance?_nil]
    | cons scope Γ =>
      have hscope : ¬Bindings.contains "super" scope := by simpa [Scope.redeclares] using hsuper
      simp [Scope.distance?_cons, hscope]
  | inner _ ih =>
    rw [Scope.distance?_cons]
    split
    · simp
    · simpa using ih

theorem resolve (h : Beneath k Γ Γ') {r : Reference} (hr : r.hops = none) :
    r.resolve Γ' = (r.resolve Γ).lift (some k) := by
  simp [Reference.resolve, Reference.lift, hr, h.distance?]

theorem readFindings (h : Beneath k Γ Γ') {r : Reference} (hr : r.readFindings Γ = []) :
    r.readFindings Γ' = [] := by
  cases h with
  | here => rfl
  | inner => exact hr

theorem introduce (h : Beneath (k + 1) Γ Γ') (t : Token) :
    Beneath (k + 1) (Scope.introduce t Γ) (Scope.introduce t Γ') := by
  cases h with
  | inner h => exact h.inner

theorem declare (h : Beneath (k + 1) Γ Γ') (x : String) :
    Beneath (k + 1) (Scope.declare x Γ) (Scope.declare x Γ') := by
  cases h with
  | inner h => exact h.inner

theorem declareFindings (h : Beneath (k + 1) Γ Γ') (t : Token) :
    Scope.declareFindings t Γ' = Scope.declareFindings t Γ := by
  cases h with
  | inner => rfl

/-- Directly inside the braces nothing is declared. -/
theorem introduceEach (h : Beneath k Γ Γ') {ts : List Token} (hts : k = 0 → ts = []) :
    Beneath k (Scope.introduceEach ts Γ) (Scope.introduceEach ts Γ') := by
  cases k with
  | zero =>
    rw [hts rfl]
    exact h
  | succ k =>
    clear hts
    induction ts generalizing Γ Γ' with
    | nil => exact h
    | cons t ts ih => exact ih (h.introduce t)

theorem introduceAll (h : Beneath (k + 1) Γ Γ') (ps : List Token) :
    (Scope.introduceAll ps Γ').2 = (Scope.introduceAll ps Γ).2 := by
  induction ps generalizing Γ Γ' with
  | nil => rfl
  | cons p ps ih => simp only [Scope.introduceAll, h.declareFindings, ih (h.introduce p)]

theorem aroundMethods (h : Beneath k Γ Γ') (hasSuperclass : Bool) :
    Beneath (k + if hasSuperclass then 2 else 1) (Scope.aroundMethods hasSuperclass Γ)
      (Scope.aroundMethods hasSuperclass Γ') := by
  cases hasSuperclass with
  | true => exact h.inner.inner
  | false => exact h.inner

end Beneath

/-! ## Inside the braces -/

mutual
theorem resolve_expr (hΓ : Beneath k Γ Γ') : ∀ e : Expr, e.WellFormed →
    (e.resolve around Γ).2 = [] → (e.resolve around Γ').2 = [] ∧
      Braced (some k) (.expr (e.resolve around Γ).1) (.expr (e.resolve around Γ').1)
  | .missing, hw, _ => by
    simp only [Expr.WellFormed] at hw
  | .assign r e, hw, hf => by
    simp only [Expr.WellFormed, Expr.resolve] at hw hf ⊢
    obtain ⟨hf', he⟩ := resolve_expr hΓ e hw.2 hf
    rw [hΓ.resolve hw.1.hops]
    exact ⟨hf', .assign he⟩
  | .binary l op r, hw, hf => by
    simp only [Expr.WellFormed, Expr.resolve, List.append_eq_nil_iff] at hw hf ⊢
    obtain ⟨hl', hl⟩ := resolve_expr hΓ l hw.1 hf.1
    obtain ⟨hr', hr⟩ := resolve_expr hΓ r hw.2.2 hf.2
    exact ⟨⟨hl', hr'⟩, .binary hl hr⟩
  | .call f _ es, hw, hf => by
    simp only [Expr.WellFormed, Expr.resolve, List.append_eq_nil_iff] at hw hf ⊢
    obtain ⟨hcallee', hcallee⟩ := resolve_expr hΓ f hw.1 hf.1
    obtain ⟨hes', hes⟩ := resolve_exprs hΓ es hw.2 hf.2
    exact ⟨⟨hcallee', hes'⟩, .call hcallee hes⟩
  | .get e _, hw, hf => by
    simp only [Expr.WellFormed, Expr.resolve] at hw hf ⊢
    obtain ⟨hf', he⟩ := resolve_expr hΓ e hw hf
    exact ⟨hf', .get he⟩
  | .grouping e, hw, hf => by
    simp only [Expr.WellFormed, Expr.resolve] at hw hf ⊢
    obtain ⟨hf', he⟩ := resolve_expr hΓ e hw hf
    exact ⟨hf', .grouping he⟩
  | .literal _, _, _ => by
    simp only [Expr.resolve]
    exact ⟨trivial, .literal⟩
  | .logical l _ r, hw, hf => by
    simp only [Expr.WellFormed, Expr.resolve, List.append_eq_nil_iff] at hw hf ⊢
    obtain ⟨hl', hl⟩ := resolve_expr hΓ l hw.1 hf.1
    obtain ⟨hr', hr⟩ := resolve_expr hΓ r hw.2 hf.2
    exact ⟨⟨hl', hr'⟩, .logical hl hr⟩
  | .set e _ v, hw, hf => by
    simp only [Expr.WellFormed, Expr.resolve, List.append_eq_nil_iff] at hw hf ⊢
    obtain ⟨hv', hv⟩ := resolve_expr hΓ v hw.2 hf.1
    obtain ⟨he', he⟩ := resolve_expr hΓ e hw.1 hf.2
    exact ⟨⟨hv', he'⟩, .set he hv⟩
  | .super r _, hw, hf => by
    simp only [Expr.WellFormed, Expr.resolve] at hw hf ⊢
    have hsuper (j : Nat) (hj : some k = some j) : (r.resolve Γ).hops ≠ some j := by
      have := hΓ.distance?_super
      simpa [Reference.resolve, hw.hops, hw.name, ← hj] using this
    rw [hΓ.resolve hw.hops]
    exact ⟨hf, .super hsuper⟩
  | .this r, hw, hf => by
    simp only [Expr.WellFormed, Expr.resolve] at hw hf ⊢
    split at hf
    · cases hf
    · next hclass =>
      rw [if_neg hclass, if_neg hclass, hΓ.resolve hw.hops]
      exact ⟨rfl, .this⟩
  | .unary _ e, hw, hf => by
    simp only [Expr.WellFormed, Expr.resolve] at hw hf ⊢
    obtain ⟨hf', he⟩ := resolve_expr hΓ e hw.2 hf
    exact ⟨hf', .unary he⟩
  | .variable r, hw, hf => by
    simp only [Expr.WellFormed, Expr.resolve] at hw hf ⊢
    rw [hΓ.resolve hw.hops]
    exact ⟨hΓ.readFindings hf, .variable⟩
theorem resolve_exprs (hΓ : Beneath k Γ Γ') : ∀ es : List Expr, WellFormedExprs es →
    (resolveExprs around Γ es).2 = [] → (resolveExprs around Γ' es).2 = [] ∧
      Braced (some k) (.exprs (resolveExprs around Γ es).1) (.exprs (resolveExprs around Γ' es).1)
  | [], _, _ => by
    simp only [resolveExprs]
    exact ⟨trivial, .noExprs⟩
  | e :: es, hw, hf => by
    simp only [WellFormedExprs, resolveExprs, List.append_eq_nil_iff] at hw hf ⊢
    obtain ⟨he', he⟩ := resolve_expr hΓ e hw.1 hf.1
    obtain ⟨hes', hes⟩ := resolve_exprs hΓ es hw.2 hf.2
    exact ⟨⟨he', hes'⟩, .exprs he hes⟩
end

mutual
theorem resolve_stmt : ∀ (s : Stmt) (around : Enclosing) {k : Nat} {Γ Γ' : List Scope},
    Beneath k Γ Γ' → s.WellFormed → (k = 0 → s.declared = []) →
    (s.resolve around Γ).findings = [] → (s.resolve around Γ').findings = [] ∧
      Braced (some k) (.stmt (s.resolve around Γ).tree) (.stmt (s.resolve around Γ').tree)
  | .missing, _, _, _, _, _, _, _, _ => by
    simp only [Stmt.resolve]
    exact ⟨trivial, .noStmt⟩
  | .block ss, around, _, _, _, hΓ, hw, _, hf => by
    simp only [Stmt.WellFormed, Stmt.resolve] at hw hf ⊢
    obtain ⟨hf', hss⟩ := resolve_stmts ss around hΓ.inner hw nofun hf
    exact ⟨hf', .block hss⟩
  | .classDecl name superclass fs, around, 0, _, _, hΓ, hw, hd, hf => nomatch hd rfl
  | .classDecl name superclass fs, around, k + 1, Γ, Γ', hΓ, hw, _, hf => by
    simp only [Stmt.WellFormed, Stmt.resolve, List.append_eq_nil_iff] at hw hf ⊢
    have hout := hΓ.introduce name
    obtain ⟨hfs', hlen, hfs⟩ := resolve_methods fs
      ⟨around.function, some (if superclass.isSome then .derived else .base)⟩
      (hout.aroundMethods superclass.isSome) hw.2.2 hf.2
    have hparent : (superclass.map (·.resolveSuperclass (Scope.introduce name Γ') name)).map (·.1) =
          ((superclass.map (·.resolveSuperclass (Scope.introduce name Γ) name)).map (·.1)).map
            (·.lift (some (k + 1))) ∧
        ((superclass.map (·.resolveSuperclass (Scope.introduce name Γ') name)).map (·.2)).getD [] =
          [] := by
      cases superclass with
      | none => exact ⟨rfl, rfl⟩
      | some r =>
        simp only [Option.map_some, Option.getD_some, Reference.resolveSuperclass,
          List.append_eq_nil_iff] at hf ⊢
        rw [hout.resolve (hw.2.1 r rfl).hops]
        exact ⟨rfl, hf.1.2.1, hout.readFindings hf.1.2.2⟩
    rw [hΓ.declareFindings, hparent.1]
    refine ⟨⟨⟨hf.1.1, hparent.2⟩, hfs'⟩, .classDecl (by simp) hlen ?_⟩
    simpa [deeper] using hfs
  | .expression e, _, _, _, _, hΓ, hw, _, hf => by
    simp only [Stmt.WellFormed, Stmt.resolve] at hw hf ⊢
    obtain ⟨hf', he⟩ := resolve_expr hΓ e hw hf
    exact ⟨hf', .expression he⟩
  | .function f, _, 0, _, _, _, _, hd, _ => nomatch hd rfl
  | .function f, around, k + 1, _, _, hΓ, hw, _, hf => by
    simp only [Stmt.WellFormed, Stmt.resolve, List.append_eq_nil_iff] at hw hf ⊢
    obtain ⟨hf', hbody⟩ := resolve_function f _ (hΓ.introduce f.name) hw hf.2
    exact ⟨⟨hΓ.declareFindings _ ▸ hf.1, hf'⟩, .function (by simp) hbody⟩
  | .ifElse c t e, around, _, Γ, Γ', hΓ, hw, _, hf => by
    simp only [Stmt.WellFormed, Stmt.resolve, List.append_eq_nil_iff,
      Stmt.scopes_resolve] at hw hf ⊢
    rw [hw.2.1.2, Scope.introduceEach_nil] at hf ⊢
    obtain ⟨hc', hc⟩ := resolve_expr hΓ c hw.1 hf.1.1
    obtain ⟨ht', ht⟩ := resolve_stmt t around hΓ hw.2.1.1 (fun _ => hw.2.1.2) hf.1.2
    obtain ⟨he', he⟩ := resolve_stmt e around hΓ hw.2.2.1 (fun _ => hw.2.2.2) hf.2
    exact ⟨⟨⟨hc', ht'⟩, he'⟩, .ifElse hc ht he⟩
  | .print e, _, _, _, _, hΓ, hw, _, hf => by
    simp only [Stmt.WellFormed, Stmt.resolve] at hw hf ⊢
    obtain ⟨hf', he⟩ := resolve_expr hΓ e hw hf
    exact ⟨hf', .print he⟩
  | .returning k none, _, _, _, _, _, _, _, hf => by
    simp only [Stmt.resolve, Expr.resolveOption] at hf ⊢
    exact ⟨hf, .returnNil⟩
  | .returning k (some e), _, _, _, _, hΓ, hw, _, hf => by
    simp only [Stmt.WellFormed, Expr.WellFormedOption, Stmt.resolve, Expr.resolveOption,
      List.append_eq_nil_iff] at hw hf ⊢
    obtain ⟨hf', he⟩ := resolve_expr hΓ e hw hf.2
    exact ⟨⟨hf.1, hf'⟩, .returnValue he⟩
  | .varDecl .., _, 0, _, _, _, _, hd, _ => nomatch hd rfl
  | .varDecl name none, _, k + 1, _, _, hΓ, _, _, hf => by
    simp only [Stmt.resolve, Expr.resolveOption, List.append_nil] at hf ⊢
    exact ⟨hΓ.declareFindings name ▸ hf, .varNil (by simp)⟩
  | .varDecl name (some e), _, k + 1, _, _, hΓ, hw, _, hf => by
    simp only [Stmt.WellFormed, Expr.WellFormedOption, Stmt.resolve, Expr.resolveOption,
      List.append_eq_nil_iff] at hw hf ⊢
    obtain ⟨hf', he⟩ := resolve_expr (hΓ.declare name.lexeme) e hw.2 hf.2
    exact ⟨⟨hΓ.declareFindings name ▸ hf.1, hf'⟩, .varValue (by simp) he⟩
  | .whileLoop c b, around, _, _, _, hΓ, hw, _, hf => by
    simp only [Stmt.WellFormed, Stmt.resolve, List.append_eq_nil_iff] at hw hf ⊢
    obtain ⟨hc', hc⟩ := resolve_expr hΓ c hw.1 hf.1
    obtain ⟨hb', hb⟩ := resolve_stmt b around hΓ hw.2.1 (fun _ => hw.2.2) hf.2
    exact ⟨⟨hc', hb'⟩, .whileLoop hc hb⟩
theorem resolve_function : ∀ (f : Function) (around : Enclosing) {k : Nat} {Γ Γ' : List Scope},
    Beneath k Γ Γ' → f.WellFormed → (f.resolve around Γ).2 = [] → (f.resolve around Γ').2 = [] ∧
      Braced (some k) (.function (f.resolve around Γ).1) (.function (f.resolve around Γ').1)
  | .mk name ps ss, around, k, Γ, Γ', hΓ, hw, hf => by
    simp only [Function.WellFormed, Function.resolve, List.append_eq_nil_iff,
      Scope.introduceAll_fst] at hw hf ⊢
    have hinner : Beneath (k + 1) ([] :: Γ) ([] :: Γ') := hΓ.inner
    have hbody : Beneath (k + 1) (Scope.introduceEach ps ([] :: Γ))
        (Scope.introduceEach ps ([] :: Γ')) := hinner.introduceEach nofun
    obtain ⟨hf', hss⟩ := resolve_stmts ss around hbody
      hw.2.2 nofun hf.2
    exact ⟨⟨hinner.introduceAll ps ▸ hf.1, hf'⟩, .body hss⟩
theorem resolve_methods : ∀ (fs : List Function) (around : Enclosing) {k : Nat}
    {Γ Γ' : List Scope}, Beneath k Γ Γ' → WellFormedFunctions fs →
    (resolveMethods around Γ fs).2 = [] → (resolveMethods around Γ' fs).2 = [] ∧
      (resolveMethods around Γ fs).1.length = (resolveMethods around Γ' fs).1.length ∧
      ∀ f f', (f, f') ∈ (resolveMethods around Γ fs).1.zip (resolveMethods around Γ' fs).1 →
        Braced (some k) (.function f) (.function f')
  | [], _, _, _, _, _, _, _ => by
    simp [resolveMethods]
  | f :: fs, around, k, _, _, hΓ, hw, hf => by
    simp only [WellFormedFunctions, resolveMethods, List.append_eq_nil_iff] at hw hf ⊢
    obtain ⟨hf', hfirst⟩ := resolve_function f _ hΓ hw.1 hf.1
    obtain ⟨hfs', hlen, hrest⟩ := resolve_methods fs around hΓ hw.2 hf.2
    refine ⟨⟨hf', hfs'⟩, congrArg (· + 1) hlen, fun g g' hg => ?_⟩
    rcases List.mem_cons.1 hg with hg | hg
    · cases hg
      exact hfirst
    · exact hrest g g' hg
theorem resolve_stmts : ∀ (ss : List Stmt) (around : Enclosing) {k : Nat} {Γ Γ' : List Scope},
    Beneath k Γ Γ' → WellFormedStmts ss → (k = 0 → declaredNames ss = []) →
    (resolveStmts around Γ ss).findings = [] → (resolveStmts around Γ' ss).findings = [] ∧
      Braced (some k) (.stmts (resolveStmts around Γ ss).tree)
        (.stmts (resolveStmts around Γ' ss).tree)
  | [], _, _, _, _, _, _, _, _ => by
    simp only [resolveStmts]
    exact ⟨trivial, .noStmts⟩
  | s :: ss, around, k, Γ, Γ', hΓ, hw, hd, hf => by
    simp only [WellFormedStmts, resolveStmts, List.append_eq_nil_iff, declaredNames_cons,
      Stmt.scopes_resolve] at hw hd hf ⊢
    obtain ⟨hs', hs⟩ := resolve_stmt s around hΓ hw.1 (fun h => (hd h).1) hf.1
    obtain ⟨hss', hss⟩ := resolve_stmts ss around (hΓ.introduceEach fun h => (hd h).1) hw.2
      (fun h => (hd h).2) hf.2
    exact ⟨⟨hs', hss'⟩, .stmts hs hss⟩
end

/-! ## Around the braces -/

/-- A node resolved among scopes. -/
def resolveNode (around : Enclosing) (Γ : List Scope) : Node → Resolved Node
  | .expr e => ⟨.expr (e.resolve around Γ).1, Γ, (e.resolve around Γ).2⟩
  | .exprs es => ⟨.exprs (resolveExprs around Γ es).1, Γ, (resolveExprs around Γ es).2⟩
  | .stmt s =>
    ⟨.stmt (s.resolve around Γ).tree, (s.resolve around Γ).scopes, (s.resolve around Γ).findings⟩
  | .stmts ss =>
    ⟨.stmts (resolveStmts around Γ ss).tree, (resolveStmts around Γ ss).scopes,
      (resolveStmts around Γ ss).findings⟩
  | .function f => ⟨.function (f.resolve around Γ).1, Γ, (f.resolve around Γ).2⟩

/-- What becomes of a statement and its block in resolved trees. -/
def LiftsBraced (s t : Stmt) : Prop :=
  s.LiftBraces t ∧ Braced (some 0) (.stmt s) (.stmt (s.lift (some 0)))

/-- A scope with names added to it does not declare `super` if it did not before. -/
theorem redeclares_super_introduceEach {ts : List Token} (hts : ∀ t ∈ ts, IsIdentifier t.lexeme)
    (hΓ : Scope.redeclares "super" Γ = false) :
    Scope.redeclares "super" (Scope.introduceEach ts Γ) = false := by
  induction ts generalizing Γ with
  | nil => exact hΓ
  | cons t ts ih =>
    obtain ⟨ht, hts⟩ := List.forall_mem_cons.1 hts
    rw [Scope.introduceEach_cons]
    refine ih hts ?_
    cases Γ with
    | nil => rfl
    | cons scope Γ =>
      have hscope : ¬Bindings.contains "super" scope := by simpa [Scope.redeclares] using hΓ
      rw [Scope.introduce_cons, Scope.redeclares, ← Bool.not_eq_true, Scope.contains_add]
      exact fun h => h.elim ht.ne_super.symm hscope

theorem resolveMethods_append (fs gs : List Function) :
    resolveMethods around Γ (fs ++ gs) =
      ((resolveMethods around Γ fs).1 ++ (resolveMethods around Γ gs).1,
        (resolveMethods around Γ fs).2 ++ (resolveMethods around Γ gs).2) := by
  induction fs with
  | nil => simp only [List.nil_append, resolveMethods]
  | cons f fs ih => simp only [List.cons_append, resolveMethods, ih, List.append_assoc]

theorem wellFormedFunctions_append {fs gs : List Function} :
    WellFormedFunctions (fs ++ gs) ↔ WellFormedFunctions fs ∧ WellFormedFunctions gs := by
  simp only [wellFormedFunctions_iff, List.forall_mem_append]

/-- The statement in braces: nothing is found in it, and it is lifted. -/
theorem resolve_block (hw : s.WellFormed) (hs : s.declared = [])
    (hΓ : Scope.redeclares "super" Γ = false) (hf : (s.resolve around Γ).findings = []) :
    ((Stmt.block [s]).resolve around Γ).findings = [] ∧
      LiftsBraced (s.resolve around Γ).tree ((Stmt.block [s]).resolve around Γ).tree := by
  obtain ⟨hf', hb⟩ := resolve_stmt s around (.here hΓ) hw (fun _ => hs) hf
  have hlift : (s.resolve around ([] :: Γ)).tree = (s.resolve around Γ).tree.lift (some 0) :=
    Node.stmt.inj (hb.eq_lift rfl)
  simp only [Stmt.resolve, resolveStmts, List.append_nil]
  exact ⟨hf', by rw [Stmt.LiftBraces, hlift], hlift ▸ hb⟩

theorem declared_of_isPlain {s : Stmt} (hw : s.WellFormed) (hs : s.isPlain) : s.declared = [] := by
  cases s with
  | ifElse c t e => simp only [Stmt.declared, hw.2.1.2, hw.2.2.2, List.append_nil]
  | whileLoop c b => exact hw.2.2
  | missing | classDecl | function | varDecl => cases hs
  | _ => rfl

theorem name_of_atStatement {f g : Function} (h : AtStatement R (.function f) (.function g)) :
    g.name = f.name := by
  cases h
  rfl

theorem redeclares_super_aroundMethods (hasSuperclass : Bool) :
    Scope.redeclares "super" (Scope.aroundMethods hasSuperclass Γ) = false := by
  simp [Scope.aroundMethods, Scope.redeclares, Bindings.contains, Bindings.get?]

/-- A tree without findings has none once one of its statements is in braces. -/
theorem resolve_atStatement (h : AtStatement Stmt.Braces n n') (hw : n.WellFormed)
    (hΓ : Scope.redeclares "super" Γ = false) (hf : (resolveNode around Γ n).findings = []) :
    (resolveNode around Γ n').findings = [] ∧
      (resolveNode around Γ n').scopes = (resolveNode around Γ n).scopes ∧
      AtStatement LiftsBraced (resolveNode around Γ n).tree (resolveNode around Γ n').tree := by
  induction h generalizing around Γ with
  | @here s t hst =>
    obtain ⟨hs, rfl⟩ := hst
    have hd := declared_of_isPlain hw hs
    obtain ⟨hf', hlift⟩ := resolve_block hw hd hΓ hf
    refine ⟨hf', ?_, .here hlift⟩
    simp only [resolveNode, Stmt.scopes_resolve, hd]
    rfl
  | block _ ih =>
    simp only [Node.WellFormed, Stmt.WellFormed, resolveNode, Stmt.resolve] at hw hf ih ⊢
    obtain ⟨hf', -, htree⟩ := ih hw rfl hf
    exact ⟨hf', trivial, .block htree⟩
  | @method f g name superclass fs gs h ih =>
    simp only [Node.WellFormed, Stmt.WellFormed, wellFormedFunctions_append, WellFormedFunctions,
      resolveNode, Stmt.resolve, resolveMethods_append, resolveMethods,
      List.append_eq_nil_iff] at hw hf ih ⊢
    obtain ⟨hhead, hfs, hf, hgs⟩ := hf
    obtain ⟨hg, -, htree⟩ := ih hw.2.2.2.1 (redeclares_super_aroundMethods _) hf
    rw [name_of_atStatement h]
    exact ⟨⟨hhead, hfs, hg, hgs⟩, trivial, .method htree⟩
  | function h ih =>
    simp only [Node.WellFormed, Stmt.WellFormed, resolveNode, Stmt.resolve,
      List.append_eq_nil_iff] at hw hf ih ⊢
    have hnames := Stmt.WellFormed.declared (s := .function _) hw
    obtain ⟨hf', -, htree⟩ := ih hw (redeclares_super_introduceEach hnames hΓ) hf.2
    rw [name_of_atStatement h]
    exact ⟨⟨hf.1, hf'⟩, rfl, .function htree⟩
  | thenBranch _ ih =>
    simp only [Node.WellFormed, Stmt.WellFormed, resolveNode, Stmt.resolve,
      List.append_eq_nil_iff] at hw hf ih ⊢
    obtain ⟨hf', hscopes, htree⟩ := ih hw.2.1.1 hΓ hf.1.2
    rw [hscopes]
    exact ⟨⟨⟨hf.1.1, hf'⟩, hf.2⟩, rfl, .thenBranch htree⟩
  | elseBranch _ ih =>
    simp only [Node.WellFormed, Stmt.WellFormed, resolveNode, Stmt.resolve,
      List.append_eq_nil_iff, Stmt.scopes_resolve _ _ Γ, hw.2.1.2] at hw hf ih ⊢
    obtain ⟨hf', hscopes, htree⟩ := ih hw.2.2.1 hΓ hf.2
    exact ⟨⟨hf.1, hf'⟩, hscopes, .elseBranch htree⟩
  | whileBody _ ih =>
    simp only [Node.WellFormed, Stmt.WellFormed, resolveNode, Stmt.resolve,
      List.append_eq_nil_iff] at hw hf ih ⊢
    obtain ⟨hf', hscopes, htree⟩ := ih hw.2.1 hΓ hf.2
    exact ⟨⟨hf.1, hf'⟩, hscopes, .whileBody htree⟩
  | @body ss ts name ps _ ih =>
    simp only [Node.WellFormed, Function.WellFormed, resolveNode, Function.resolve,
      List.append_eq_nil_iff, Scope.introduceAll_fst] at hw hf ih ⊢
    obtain ⟨hf', -, htree⟩ := ih hw.2.2 (redeclares_super_introduceEach hw.2.1 rfl) hf.2
    exact ⟨⟨hf.1, hf'⟩, trivial, .body htree⟩
  | head _ ih =>
    simp only [Node.WellFormed, WellFormedStmts, resolveNode, resolveStmts,
      List.append_eq_nil_iff] at hw hf ih ⊢
    obtain ⟨hf', hscopes, htree⟩ := ih hw.1 hΓ hf.1
    rw [hscopes]
    exact ⟨⟨hf', hf.2⟩, rfl, .head htree⟩
  | tail _ ih =>
    simp only [Node.WellFormed, WellFormedStmts, resolveNode, resolveStmts,
      List.append_eq_nil_iff, Stmt.scopes_resolve] at hw hf ih ⊢
    obtain ⟨hf', hscopes, htree⟩ := ih hw.2
      (redeclares_super_introduceEach hw.1.declared hΓ) hf.2
    exact ⟨⟨hf.1, hf'⟩, hscopes, .tail htree⟩

end

end LoxLang.Braces
