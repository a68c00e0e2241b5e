import LoxLang.Proofs.Sites

/-!
# Accepted nodes fit

An accepted program fits (`fits_program`): when no violation is found at a node, none is found at
the nodes that the walk asks for, and the scopes around them are laid out as the regions say
(`Visited.fits`).
-/

namespace LoxLang

theorem Site.after_eq (σ : Site) (s : Stmt) :
    σ.after s = { σ with scopes := Scope.introduceEach s.declared σ.scopes } := by
  rw [Site.after, Stmt.scopes_resolve]

theorem Site.after_of_contained (h : s.declared = []) (σ : Site) : σ.after s = σ := by
  rw [Site.after_eq, h, Scope.introduceEach_nil]

namespace Layers

/-- A scope may get a name that its region declares. -/
theorem widen (h : Layers k (scope :: Γ) ρs) (ht : ∀ ρ ∈ ρs.head?, t ∈ ρ.declared)
    (hs : ∀ x, wider.contains x → x = t.lexeme ∨ scope.contains x) :
    Layers k (wider :: Γ) ρs := by
  cases h with
  | inner h hnames hd =>
    refine .inner h (fun x hx => ?_) hd
    rcases hs x hx with rfl | hx
    · exact ⟨t, ht _ rfl, rfl⟩
    · exact hnames x hx
  | base h => cases ht _ rfl
  | derived h => cases ht _ rfl

theorem introduce (h : Layers k Γ ρs) (ht : ∀ ρ ∈ ρs.head?, t ∈ ρ.declared) :
    Layers k (Scope.introduce t Γ) ρs := by
  cases Γ with
  | nil => exact h
  | cons scope Γ => exact h.widen ht fun x hx => (Scope.contains_add t scope x).1 hx

theorem declare (h : Layers k Γ ρs) (ht : ∀ ρ ∈ ρs.head?, t ∈ ρ.declared) :
    Layers k (Scope.declare t.lexeme Γ) ρs := by
  cases Γ with
  | nil => exact h
  | cons scope Γ =>
    refine h.widen ht fun x hx => ?_
    simpa [Bindings.contains_insert] using hx

theorem introduceEach (h : Layers k Γ ρs) (hts : ∀ ρ ∈ ρs.head?, ∀ t ∈ ts, t ∈ ρ.declared) :
    Layers k (Scope.introduceEach ts Γ) ρs := by
  induction ts generalizing Γ with
  | nil => exact h
  | cons t ts ih =>
    refine ih (h.introduce fun ρ hρ => hts ρ hρ t List.mem_cons_self) fun ρ hρ u hu => ?_
    exact hts ρ hρ u (List.mem_cons_of_mem _ hu)

/-- A scope of declared names has none for a keyword. -/
theorem not_contains_keyword {scope : Scope}
    (hnames : ∀ x, scope.contains x → ∃ t ∈ ρ.declared, t.lexeme = x)
    (hd : Region.Distinct ρ) (hx : ¬IsIdentifier x) : ¬scope.contains x := by
  intro hc
  obtain ⟨t, ht, rfl⟩ := hnames x hc
  exact hx (hd.identifiers t ht)

/-- `this` has a scope wherever there is a class around. -/
theorem distance?_this (h : Layers (some k) Γ ρs) :
    ∃ d f, Scope.distance? Γ "this" = some d ∧ Γ[d]? = some [("this", true)] ∧
      ρs[d]? = some (.receiver f) := by
  generalize hk : some k = k' at h
  induction h with
  | globals => cases hk
  | inner _ hnames hd ih =>
    obtain ⟨d, f, hthis, hΓ, hρ⟩ := ih hk
    have hno := not_contains_keyword hnames hd (x := "this") (by decide)
    exact ⟨d + 1, f, by simp [Scope.distance?_cons, hno, hthis], hΓ, hρ⟩
  | base => exact ⟨0, _, rfl, rfl, rfl⟩
  | derived => exact ⟨0, _, rfl, rfl, rfl⟩

/-- In a class with a superclass, the scope of `super` is the one around that of `this`. -/
theorem distance?_super (h : Layers (some .derived) Γ ρs) :
    ∃ d f name fs, Scope.distance? Γ "super" = some (d + 1) ∧
      Γ[d]? = some [("this", true)] ∧ Γ[d + 1]? = some [("super", true)] ∧
      ρs[d]? = some (.receiver f) ∧ ρs[d + 1]? = some (.superclass name fs) := by
  generalize hk : some ClassKind.derived = k at h
  induction h with
  | globals => cases hk
  | inner _ hnames hd ih =>
    obtain ⟨d, f, name, fs, hsuper, hΓ, hΓ', hρ, hρ'⟩ := ih hk
    have hno := not_contains_keyword hnames hd (x := "super") (by decide)
    exact ⟨d + 1, f, name, fs, by simp [Scope.distance?_cons, hno, hsuper], hΓ, hΓ', hρ, hρ'⟩
  | base => cases hk
  | derived => exact ⟨0, _, _, _, rfl, rfl, rfl, rfl, rfl⟩

end Layers

/-- The declarations of well-formed statements are named by identifiers. -/
theorem identifiers_declaredNames (h : WellFormedStmts ss) :
    ∀ t ∈ declaredNames ss, IsIdentifier t.lexeme := by
  intro t ht
  obtain ⟨s, hs, ht⟩ := List.mem_flatMap.1 ht
  exact (wellFormedStmts_iff.1 h s hs).declared t ht

namespace Fits

/-- Only a superclass is looked up while a name is pending. -/
theorem pending_eq_none (h : Fits n σ) (hn : n.isVariable = false) : σ.pending = none := by
  cases hp : σ.pending with
  | none => rfl
  | some x =>
    obtain ⟨r, rfl, -⟩ := h.pending x hp
    cases hn

/-- So of a name that is pending there anything may be said elsewhere. -/
theorem forall_pending {P : String → Prop} (h : Fits n σ) (hn : n.isVariable = false) :
    ∀ x ∈ σ.pending, P x := by
  simp [h.pending_eq_none hn]

/-- A part at the site of its whole. -/
theorem part (h : Fits n σ) (hn : n.isVariable = false) (hw : n'.WellFormed)
    (hf : n'.findings σ = []) (hr : ∀ scope ∈ n'.readyScopes σ, scope ∈ n.readyScopes σ)
    (hd : ∀ t ∈ n'.declared, t ∈ n.declared) : Fits n' σ where
  wellFormed := hw
  findings := hf
  layers := h.layers
  ready := fun scope hs => h.ready scope (hr scope hs)
  declared := fun ρ hρ t ht => h.declared ρ hρ t (hd t ht)
  pending := h.forall_pending hn

/-- An expression at the site of its whole. -/
theorem expr (h : Fits n σ) (hn : n.isVariable = false) (hw : e.WellFormed)
    (hf : (e.resolve σ.around σ.scopes).2 = []) : Fits (.expr e) σ := by
  refine h.part hn hw hf (fun scope hs => ?_) (List.forall_mem_nil _)
  cases n with
  | expr | exprs => exact hs
  | _ => exact List.mem_of_mem_tail hs

/-- A branch of a statement declares nothing. -/
theorem branch (h : Fits (.stmt s) σ) (hw : t.WellFormed) (hd : t.declared = [])
    (hf : (t.resolve σ.around σ.scopes).findings = []) : Fits (.stmt t) σ :=
  h.part rfl hw hf (fun _ hs => hs) (by simp [Node.declared, hd])

/-- The scopes behind a declaration are as ready as those before it. -/
theorem ready_introduceEach (ts : List Token) {Γ : List Scope} (h : ∀ scope ∈ Γ, scope.Ready) :
    ∀ scope ∈ Scope.introduceEach ts Γ, scope.Ready := by
  cases Γ with
  | nil =>
    induction ts with
    | nil => nofun
    | cons t ts ih => exact ih
  | cons scope Γ =>
    obtain ⟨hs, hΓ⟩ := List.forall_mem_cons.1 h
    obtain ⟨inner, hi, hready, -⟩ := Scope.introduceEach_scope ts scope Γ
    rw [hi]
    exact List.forall_mem_cons.2 ⟨hready hs, hΓ⟩

/-! ## Other sites -/

theorem rest (h : Fits (.stmts (s :: ss)) σ) : Fits (.stmts ss) (σ.after s) := by
  have hw := h.wellFormed
  have hf := h.findings
  simp only [Node.WellFormed, WellFormedStmts, Node.findings, resolveStmts,
    List.append_eq_nil_iff] at hw hf
  rw [Site.after_eq]
  exact {
    wellFormed := hw.2
    findings := by simpa only [Node.findings, Stmt.scopes_resolve] using hf.2
    layers := h.layers.introduceEach fun ρ hρ t ht =>
      h.declared ρ hρ t (List.mem_append_left _ ht)
    ready := ready_introduceEach s.declared h.ready
    declared := fun ρ hρ t ht => h.declared ρ hρ t (List.mem_append_right _ ht)
    pending := h.forall_pending rfl }

theorem elseBranch (h : Fits (.stmt (.ifElse c t e)) σ) : Fits (.stmt e) (σ.after t) := by
  have hw := h.wellFormed
  simp only [Node.WellFormed, Stmt.WellFormed] at hw
  obtain ⟨-, ⟨-, ht⟩, he, hd⟩ := hw
  have hf := h.findings
  simp only [Node.findings, Stmt.resolve, List.append_eq_nil_iff, Stmt.scopes_resolve, ht,
    Scope.introduceEach_nil] at hf
  rw [Site.after_of_contained ht]
  exact h.branch he hd hf.2

theorem inBlock (h : Fits (.stmt (.block ss)) σ) : Fits (.stmts ss) (σ.inBlock ss) := by
  have hw := h.wellFormed
  have hf := h.findings
  simp only [Node.WellFormed, Stmt.WellFormed, Node.findings, Stmt.resolve] at hw hf
  have hdecl : (Region.block (resolveStmts σ.around ([] :: σ.scopes) ss).tree).declared =
      declaredNames ss := declaredNames_resolve ..
  exact {
    wellFormed := hw
    findings := hf
    layers := by
      refine .inner h.layers nofun ⟨?_, ?_⟩
      · rw [hdecl]; exact identifiers_declaredNames hw
      · rw [hdecl]; exact (accepts_declaredNames hf).nodup
    ready := List.forall_mem_cons.2 ⟨Scope.ready_nil, h.ready⟩
    declared := by
      rintro ρ ⟨⟩ t ht
      rwa [hdecl]
    pending := h.forall_pending rfl }

theorem inInitializer (h : Fits (.stmt (.varDecl name (some e))) σ) :
    Fits (.expr e) (σ.inInitializer name) := by
  have hw := h.wellFormed
  have hf := h.findings
  simp only [Node.WellFormed, Stmt.WellFormed, Node.findings, Stmt.resolve,
    List.append_eq_nil_iff] at hw hf
  exact {
    wellFormed := hw.2
    findings := hf.2
    layers := h.layers.declare fun ρ hρ => h.declared ρ hρ _ List.mem_cons_self
    ready := by
      intro scope hs
      refine h.ready scope ?_
      unfold Node.readyScopes Site.inInitializer at hs
      show scope ∈ σ.scopes
      cases hΓ : σ.scopes with
      | nil => simp [hΓ, Scope.declare] at hs
      | cons inner Γ =>
        simp only [hΓ, Scope.declare, List.tail_cons] at hs
        exact List.mem_cons_of_mem _ hs
    declared := fun _ _ => List.forall_mem_nil _
    pending := h.forall_pending rfl }

theorem inSuperclass (h : Fits (.stmt (.classDecl name (some r) fs)) σ) :
    Fits (.expr (.variable r)) (σ.inSuperclass name) := by
  have hw := h.wellFormed
  have hf := h.findings
  simp only [Node.WellFormed, Stmt.WellFormed, Node.findings, Stmt.resolve,
    List.append_eq_nil_iff, Option.map_some, Option.getD_some, Reference.resolveSuperclass,
    findingIf_eq_nil] at hw hf
  exact {
    wellFormed := hw.2.1 r rfl
    findings := hf.1.2.2
    layers := h.layers.introduce fun ρ hρ => h.declared ρ hρ _ List.mem_cons_self
    ready := fun scope hs =>
      ready_introduceEach [name] h.ready scope (List.mem_of_mem_tail hs)
    declared := fun _ _ => List.forall_mem_nil _
    pending := by
      rintro x ⟨⟩
      exact ⟨r, rfl, fun he => by simpa [he] using hf.1.2.1⟩ }

theorem inFunction (h : Fits (.stmt (.function f)) σ) :
    Fits (.function f) (σ.inFunction f.name) := by
  have hw := h.wellFormed
  have hf := h.findings
  simp only [Node.WellFormed, Stmt.WellFormed, Node.findings, Stmt.resolve,
    List.append_eq_nil_iff] at hw hf
  exact {
    wellFormed := hw
    findings := hf.2
    layers := h.layers.introduce fun ρ hρ => h.declared ρ hρ _ List.mem_cons_self
    ready := ready_introduceEach [f.name] h.ready
    declared := fun _ _ => List.forall_mem_nil _
    pending := h.forall_pending rfl }

/-- The findings in methods are those of each. -/
theorem of_resolveMethods (h : (resolveMethods around scopes fs).2 = []) (hf : f ∈ fs) :
    (f.resolve ⟨some (.ofMethod f.name.lexeme), around.classKind⟩ scopes).2 = [] := by
  induction fs with
  | nil => cases hf
  | cons g fs ih =>
    simp only [resolveMethods, List.append_eq_nil_iff] at h
    rcases List.mem_cons.1 hf with rfl | hf
    · exact h.1
    · exact ih h.2 hf

theorem inMethod (h : Fits (.stmt (.classDecl name r fs)) σ) (hf : f ∈ fs) :
    Fits (.function f) (σ.inMethod name r.isSome fs f) := by
  have hw := h.wellFormed
  have hfs := h.findings
  simp only [Node.WellFormed, Stmt.WellFormed, Node.findings, Stmt.resolve,
    List.append_eq_nil_iff] at hw hfs
  have hlayers : Layers σ.around.classKind (Scope.introduce name σ.scopes) σ.regions :=
    h.layers.introduce fun ρ hρ => h.declared ρ hρ _ List.mem_cons_self
  have hready := ready_introduceEach [name] h.ready
  have hthis : Scope.Ready [("this", true)] := by
    intro x; rw [Bindings.get?_cons]; split <;> simp [Bindings.get?]
  have hsuper : Scope.Ready [("super", true)] := by
    intro x; rw [Bindings.get?_cons]; split <;> simp [Bindings.get?]
  exact {
    wellFormed := (wellFormedFunctions_iff.1 hw.2.2) f hf
    findings := of_resolveMethods hfs.2 hf
    layers := by
      cases r with
      | none => exact .base hlayers
      | some r => exact .derived hlayers
    ready := by
      cases r with
      | none => exact List.forall_mem_cons.2 ⟨hthis, hready⟩
      | some r =>
        exact List.forall_mem_cons.2 ⟨hthis, List.forall_mem_cons.2 ⟨hsuper, hready⟩⟩
    declared := fun _ _ => List.forall_mem_nil _
    pending := h.forall_pending rfl }

theorem inBody (h : Fits (.function (.mk name ps ss)) σ) :
    Fits (.stmts ss) (σ.inBody (.mk name ps ss)) := by
  have hw := h.wellFormed
  have hf := h.findings
  have hnodup := (accepts_body hf).nodup
  simp only [Node.WellFormed, Function.WellFormed, Node.findings, Function.resolve,
    List.append_eq_nil_iff, Scope.introduceAll_fst] at hw hf
  obtain ⟨inner, hi, hready, hnames⟩ := Scope.introduceEach_scope ps [] σ.scopes
  have hdecl : (Region.call (σ.function (.mk name ps ss))).declared = ps ++ declaredNames ss := by
    simp only [Region.declared, Site.function, Function.resolve, Function.parameters,
      Function.body, declaredNames_resolve]
  rw [hi] at hf
  unfold Site.inBody
  rw [show (Function.mk name ps ss).parameters = ps from rfl, hi]
  exact {
    wellFormed := hw.2.2
    findings := hf.2
    layers := by
      refine .inner h.layers (fun x hx => ?_) ⟨?_, ?_⟩
      · obtain ⟨t, ht, he⟩ | hx := (hnames x).1 hx
        · exact ⟨t, by rw [hdecl]; exact List.mem_append_left _ ht, he⟩
        · cases hx
      · rw [hdecl]
        exact List.forall_mem_append.2
          ⟨hw.2.1, identifiers_declaredNames hw.2.2⟩
      · rwa [hdecl]
    ready := List.forall_mem_cons.2 ⟨hready Scope.ready_nil, h.ready⟩
    declared := by
      rintro ρ ⟨⟩ t ht
      rw [hdecl]
      exact List.mem_append_right _ ht
    pending := h.forall_pending rfl }

end Fits

/-- What the walk asks for at a node that fits, fits. -/
theorem Asks.fits (h : Asks n σ n' σ') (hn : Fits n σ) : Fits n' σ' := by
  have hw := hn.wellFormed
  have hf := hn.findings
  cases h with
  | assignValue =>
    simp only [Node.WellFormed, Expr.WellFormed, Node.findings, Expr.resolve] at hw hf
    exact hn.expr rfl hw.2 hf
  | binaryLeft =>
    simp only [Node.WellFormed, Expr.WellFormed, Node.findings, Expr.resolve,
      List.append_eq_nil_iff] at hw hf
    exact hn.expr rfl hw.1 hf.1
  | binaryRight =>
    simp only [Node.WellFormed, Expr.WellFormed, Node.findings, Expr.resolve,
      List.append_eq_nil_iff] at hw hf
    exact hn.expr rfl hw.2.2 hf.2
  | callee =>
    simp only [Node.WellFormed, Expr.WellFormed, Node.findings, Expr.resolve,
      List.append_eq_nil_iff] at hw hf
    exact hn.expr rfl hw.1 hf.1
  | arguments =>
    simp only [Node.WellFormed, Expr.WellFormed, Node.findings, Expr.resolve,
      List.append_eq_nil_iff] at hw hf
    exact hn.part rfl hw.2 hf.2 (fun _ h => h) (List.forall_mem_nil _)
  | getObject =>
    simp only [Node.WellFormed, Expr.WellFormed, Node.findings, Expr.resolve] at hw hf
    exact hn.expr rfl hw hf
  | grouping =>
    simp only [Node.WellFormed, Expr.WellFormed, Node.findings, Expr.resolve] at hw hf
    exact hn.expr rfl hw hf
  | logicalLeft =>
    simp only [Node.WellFormed, Expr.WellFormed, Node.findings, Expr.resolve,
      List.append_eq_nil_iff] at hw hf
    exact hn.expr rfl hw.1 hf.1
  | logicalRight =>
    simp only [Node.WellFormed, Expr.WellFormed, Node.findings, Expr.resolve,
      List.append_eq_nil_iff] at hw hf
    exact hn.expr rfl hw.2 hf.2
  | setObject =>
    simp only [Node.WellFormed, Expr.WellFormed, Node.findings, Expr.resolve,
      List.append_eq_nil_iff] at hw hf
    exact hn.expr rfl hw.1 hf.2
  | setValue =>
    simp only [Node.WellFormed, Expr.WellFormed, Node.findings, Expr.resolve,
      List.append_eq_nil_iff] at hw hf
    exact hn.expr rfl hw.2 hf.1
  | operand =>
    simp only [Node.WellFormed, Expr.WellFormed, Node.findings, Expr.resolve] at hw hf
    exact hn.expr rfl hw.2 hf
  | firstExpr =>
    simp only [Node.WellFormed, WellFormedExprs, Node.findings, resolveExprs,
      List.append_eq_nil_iff] at hw hf
    exact hn.expr rfl hw.1 hf.1
  | otherExprs =>
    simp only [Node.WellFormed, WellFormedExprs, Node.findings, resolveExprs,
      List.append_eq_nil_iff] at hw hf
    exact hn.part rfl hw.2 hf.2 (fun _ h => h) (List.forall_mem_nil _)
  | block => exact hn.inBlock
  | superclass => exact hn.inSuperclass
  | method hm => exact hn.inMethod hm
  | expression =>
    simp only [Node.WellFormed, Stmt.WellFormed, Node.findings, Stmt.resolve] at hw hf
    exact hn.expr rfl hw hf
  | function => exact hn.inFunction
  | ifCondition =>
    simp only [Node.WellFormed, Stmt.WellFormed, Node.findings, Stmt.resolve,
      List.append_eq_nil_iff] at hw hf
    exact hn.expr rfl hw.1 hf.1.1
  | thenBranch =>
    simp only [Node.WellFormed, Stmt.WellFormed, Node.findings, Stmt.resolve,
      List.append_eq_nil_iff] at hw hf
    exact hn.branch hw.2.1.1 hw.2.1.2 hf.1.2
  | elseBranch => exact hn.elseBranch
  | print =>
    simp only [Node.WellFormed, Stmt.WellFormed, Node.findings, Stmt.resolve] at hw hf
    exact hn.expr rfl hw hf
  | returnValue =>
    simp only [Node.WellFormed, Stmt.WellFormed, Node.findings, Stmt.resolve,
      List.append_eq_nil_iff] at hw hf
    exact hn.expr rfl hw hf.2
  | initializer => exact hn.inInitializer
  | whileCondition =>
    simp only [Node.WellFormed, Stmt.WellFormed, Node.findings, Stmt.resolve,
      List.append_eq_nil_iff] at hw hf
    exact hn.expr rfl hw.1 hf.1
  | whileBody =>
    simp only [Node.WellFormed, Stmt.WellFormed, Node.findings, Stmt.resolve,
      List.append_eq_nil_iff] at hw hf
    exact hn.branch hw.2.1 hw.2.2 hf.2
  | firstStmt =>
    simp only [Node.WellFormed, WellFormedStmts, Node.findings, resolveStmts,
      List.append_eq_nil_iff] at hw hf
    exact hn.part rfl hw.1 hf.1 (fun _ h => h) fun t ht => List.mem_append_left _ ht
  | otherStmts => exact hn.rest
  | body => exact hn.inBody

/-- Everything visited in accepted programs fits. -/
theorem Visited.fits (hroots : ∀ n, roots n → Fits n .topLevel) (h : Visited roots n σ) :
    Fits n σ := by
  induction h with
  | root hn => exact hroots _ hn
  | asks _ ha ih => exact ha.fits ih

/-- An accepted program fits at the top level. -/
theorem fits_program (hw : WellFormedStmts program) (h : (resolveProgram program).2 = []) :
    Fits (.stmts program) .topLevel where
  wellFormed := hw
  findings := List.map_eq_nil_iff.1 h
  layers := .globals
  ready := nofun
  declared := by rintro ρ ⟨⟩
  pending := nofun

theorem fits_expression {e : Expr} (hw : e.WellFormed) (h : (resolveExpression e).2 = []) :
    Fits (.expr e) .topLevel where
  wellFormed := hw
  findings := List.map_eq_nil_iff.1 h
  layers := .globals
  ready := nofun
  declared := by rintro ρ ⟨⟩
  pending := nofun

end LoxLang
