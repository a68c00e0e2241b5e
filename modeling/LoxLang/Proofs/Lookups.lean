import LoxLang.Proofs.HeapSteps

/-!
# References at their sites

What a reference that fits is resolved to is a scope whose names may be read (`Site.Reads`), and the
frame of that scope binds the name (`At.getAt`).
-/

namespace LoxLang

/-- A resolved reference may be read: its scope has the name, ready and not pending. -/
def Site.Reads (σ : Site) (r : Reference) : Prop :=
  ∀ d, r.hops = some d → ∃ scope, σ.scopes[d]? = some scope ∧
    scope.get? r.name.lexeme = some true ∧ (d = 0 → σ.pending ≠ some r.name.lexeme)

theorem Reference.hops_resolve {r : Reference} (h : r.hops = none) (scopes : List Scope) :
    (r.resolve scopes).hops = Scope.distance? scopes r.name.lexeme := by
  simp [Reference.resolve, h]

namespace Fits

/-- A variable may be read. -/
theorem reads_variable (h : Fits (.expr (.variable r)) σ) : σ.Reads (r.resolve σ.scopes) := by
  have hr := h.wellFormed
  have hf := h.findings
  simp only [Node.WellFormed, Expr.WellFormed, Node.findings, Expr.resolve,
    Reference.readFindings, findingIf_eq_nil] at hr hf
  intro d hd
  rw [Reference.hops_resolve hr.hops] at hd
  obtain ⟨scope, hscope, hx⟩ := Scope.contains_of_distance? hd
  refine ⟨scope, hscope, ?_, fun _ hp => ?_⟩
  · cases hΓ : σ.scopes with
    | nil => rw [hΓ] at hscope; cases hscope
    | cons inner Γ =>
      rw [hΓ] at hscope hf
      cases d with
      | zero =>
        cases hscope
        obtain ⟨b, hb⟩ := Option.isSome_iff_exists.1 hx
        cases b with
        | true => exact hb
        | false => simp [Scope.unready, hb] at hf
      | succ d =>
        refine Scope.get?_of_contains (h.ready scope ?_) hx
        rw [Node.readyScopes, hΓ]
        exact List.mem_of_getElem? hscope
  · obtain ⟨r', hr', hne⟩ := h.pending _ hp
    cases hr'
    exact hne rfl

/-- `this` has a number of scopes, and it may be read. -/
theorem reads_this (h : Fits (.expr (.this k)) σ) :
    ∃ d f, σ.expr (.this k) = .this ⟨k.name, some d⟩ ∧ σ.Reads ⟨k.name, some d⟩ ∧
      σ.regions[d]? = some (.receiver f) := by
  have hk := h.wellFormed
  have hf := h.findings
  simp only [Node.WellFormed, Expr.WellFormed, Node.findings, Expr.resolve] at hk hf
  cases hc : σ.around.classKind with
  | none => simp [hc] at hf
  | some kind =>
    obtain ⟨d, f, hthis, hΓ, hρ⟩ := Layers.distance?_this (hc ▸ h.layers)
    refine ⟨d, f, ?_, ?_, hρ⟩
    · simp [Site.expr, Expr.resolve, hc, Reference.resolve, hk.hops, hk.name, hthis]
    · rintro _ ⟨⟩
      refine ⟨_, hΓ, by rw [hk.name]; rfl, ?_⟩
      simp [h.pending_eq_none rfl]

/-- `super` has a number of scopes, one more than `this` has there, and both may be read. -/
theorem reads_super (h : Fits (.expr (.super k m)) σ) :
    ∃ d f name fs, σ.expr (.super k m) = .super ⟨k.name, some (d + 1)⟩ m ∧
      σ.scopes[d]? = some [("this", true)] ∧ σ.scopes[d + 1]? = some [("super", true)] ∧
      σ.regions[d]? = some (.receiver f) ∧ σ.regions[d + 1]? = some (.superclass name fs) := by
  have hk := h.wellFormed
  have hf := h.findings
  simp only [Node.WellFormed, Expr.WellFormed, Node.findings, Expr.resolve,
    Enclosing.superFindings] at hk hf
  cases hc : σ.around.classKind with
  | none => simp [hc] at hf
  | some kind =>
    cases kind with
    | base => simp [hc] at hf
    | derived =>
      obtain ⟨d, f, name, fs, hsuper, hΓ⟩ := Layers.distance?_super (hc ▸ h.layers)
      refine ⟨d, f, name, fs, ?_, hΓ⟩
      simp [Site.expr, Expr.resolve, Reference.resolve, hk.hops, hk.name, hsuper]

end Fits

namespace At

/-- The frame of a scope around a site. -/
theorem frameAt (ha : At R h i σ) (hd : σ.scopes[d]? = some scope) :
    ∃ j, h.frames.frameAt i d = .ok j ∧
      Mirrors R h.frames (if d = 0 then σ.pending else none) j
        (scope :: σ.scopes.drop (d + 1)) (σ.regions.drop d) :=
  Mirrors.frameAt ha hd

/-- A name that may be read is bound. -/
theorem getAt (ha : At R h i σ) (hd : σ.scopes[d]? = some scope)
    (hx : scope.get? x = some true) (hp : d = 0 → σ.pending ≠ some x) :
    ∃ j v, h.frames.frameAt i d = .ok j ∧ h.frames.lookup? j x = some v ∧
      h.frames.getAt i d x = .ok v := by
  obtain ⟨j, hj, hm⟩ := ha.frameAt hd
  have hl : (if d = 0 then σ.pending else none) ≠ some x := by
    split
    · next h0 => exact hp h0
    · nofun
  obtain ⟨v, hv⟩ := hm.lookup? hx hl
  exact ⟨j, v, hj, hv, Frames.getAt_of_frameAt hj hv⟩

end At

end LoxLang
