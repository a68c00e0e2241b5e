import LoxLang.Proofs.Lookups

/-!
# Code of classes

What stands in a class stands in the body of one of its methods (`Visited.placed`), however many
blocks and functions are around it there. Around the body is the scope of `this`, and around that
one the scope of `super` if the class has a superclass (`Site.InsideMethod`); so `this` and `super`
always lead to the method whose class is the innermost one around (`Fits.expr_this`,
`Fits.expr_super`).
-/

namespace LoxLang

/-- Whether a region is one of those around the methods of a class. -/
def Region.aroundMethods : Region → Bool
  | receiver _ | superclass _ _ => true
  | _ => false

/-- A site in the body of a method, so many scopes out of it, with no other class between. -/
structure Site.Within (σ : Site) (f : Function) (d : Nat) : Prop where
  between {e : Nat} {ρ : Region} : e < d → σ.regions[e]? = some ρ → ρ.aroundMethods = false
  body : σ.regions[d]? = some (.call f)
  receiver : σ.regions[d + 1]? = some (.receiver f)

/-- Around the method are the scopes of the keywords. -/
structure Site.InsideMethod (σ : Site) (f : Function) (d : Nat) : Prop extends σ.Within f d where
  this : σ.scopes[d + 1]? = some [("this", true)]
  super : σ.around.classKind = some .derived → σ.scopes[d + 2]? = some [("super", true)]

/-- A resolved method of a class declaration. -/
inductive MethodOf (V : Node → Site → Prop) (name : Token) (superclass : Option Reference)
    (methods : List Function) : Function → Prop where
  | intro : V (.stmt (.classDecl name superclass methods)) σ → f ∈ methods →
    MethodOf V name superclass methods ((σ.inMethod name superclass.isSome methods f).function f)

/-- Where a node stands as regards classes: in none, as a method, or in a method. -/
inductive Placed (V : Node → Site → Prop) : Node → Site → Prop where
  | outside : σ.around.classKind = none → Placed V n σ
  | method : V (.stmt (.classDecl name r fs)) σ → f ∈ fs →
    Placed V (.function f) (σ.inMethod name r.isSome fs f)
  | inside : MethodOf V name r fs f → σ.InsideMethod f d → Placed V n σ

namespace Site.InsideMethod

variable {σ σ' : Site}

/-- What the innermost scope has does not matter. -/
theorem move (h : σ.InsideMethod f d) (hr : σ'.regions = σ.regions)
    (hk : σ'.around.classKind = σ.around.classKind) (ht : σ'.scopes.tail = σ.scopes.tail) :
    σ'.InsideMethod f d where
  between := hr ▸ h.between
  body := hr ▸ h.body
  receiver := hr ▸ h.receiver
  this := by rw [← List.getElem?_tail, ht, List.getElem?_tail]; exact h.this
  super hd := by rw [← List.getElem?_tail, ht, List.getElem?_tail]; exact h.super (hk ▸ hd)

theorem enter (h : σ.InsideMethod f d) (hρ : ρ.aroundMethods = false)
    (hr : σ'.regions = ρ :: σ.regions) (hk : σ'.around.classKind = σ.around.classKind)
    (ht : σ'.scopes.tail = σ.scopes) : σ'.InsideMethod f (d + 1) where
  between {e ρ'} he hρ' := by
    rw [hr] at hρ'
    cases e with
    | zero => cases hρ'; exact hρ
    | succ e => exact h.between (Nat.lt_of_succ_lt_succ he) hρ'
  body := hr ▸ h.body
  receiver := hr ▸ h.receiver
  this := by rw [← List.getElem?_tail, ht]; exact h.this
  super hd := by rw [← List.getElem?_tail, ht]; exact h.super (hk ▸ hd)

end Site.InsideMethod

theorem Scope.tail_introduceEach (ts : List Token) (Γ : List Scope) :
    (introduceEach ts Γ).tail = Γ.tail := by
  cases Γ with
  | nil => induction ts with
    | nil => rfl
    | cons t ts ih => exact ih
  | cons scope Γ =>
    obtain ⟨inner, hi, -⟩ := introduceEach_scope ts scope Γ
    rw [hi]
    rfl

theorem Scope.tail_declare (x : String) (Γ : List Scope) : (declare x Γ).tail = Γ.tail := by
  cases Γ <;> rfl

namespace Placed

variable {V : Node → Site → Prop} {σ σ' : Site}

theorem move (h : Placed V n σ) (hn : ∀ f, n ≠ .function f) (hr : σ'.regions = σ.regions)
    (hk : σ'.around.classKind = σ.around.classKind) (ht : σ'.scopes.tail = σ.scopes.tail) :
    Placed V n' σ' := by
  cases h with
  | outside h => exact .outside (hk.trans h)
  | method => exact absurd rfl (hn _)
  | inside hf h => exact .inside hf (h.move hr hk ht)

theorem same (h : Placed V n σ) (hn : ∀ f, n ≠ .function f) : Placed V n' σ :=
  h.move hn rfl rfl rfl

theorem enter (h : Placed V n σ) (hn : ∀ f, n ≠ .function f) (hρ : ρ.aroundMethods = false)
    (hr : σ'.regions = ρ :: σ.regions) (hk : σ'.around.classKind = σ.around.classKind)
    (ht : σ'.scopes.tail = σ.scopes) : Placed V n' σ' := by
  cases h with
  | outside h => exact .outside (hk.trans h)
  | method => exact absurd rfl (hn _)
  | inside hf h => exact .inside hf (h.enter hρ hr hk ht)

/-- The body of a method is in the method, and that of another function is where the function is. -/
theorem inBody (h : Placed V (.function f) σ) : Placed V n (σ.inBody f) := by
  have htail : (σ.inBody f).scopes.tail = σ.scopes := Scope.tail_introduceEach ..
  cases h with
  | outside h => exact .outside h
  | inside hf h => exact .inside hf (h.enter (ρ := .call (σ.function f)) rfl rfl rfl htail)
  | @method name r fs σ _ hv hf =>
    have hwithin : Site.InsideMethod ((σ.inMethod name r.isSome fs f).inBody f)
        ((σ.inMethod name r.isSome fs f).function f) 0 := {
      between := nofun
      body := rfl
      receiver := rfl
      this := by rw [← List.getElem?_tail, htail]; rfl
      super := by
        intro hd
        rw [← List.getElem?_tail, htail]
        cases r with
        | none => cases hd
        | some r => rfl }
    exact .inside (.intro hv hf) hwithin

end Placed

/-- Every node that is visited in a class stands in a method. -/
theorem Visited.placed (h : Visited roots n σ) : Placed (Visited roots) n σ := by
  induction h with
  | root => exact .outside rfl
  | asks hv ha ih =>
    cases ha with
    | block => exact ih.enter nofun (ρ := .block _) rfl rfl rfl rfl
    | method hf => exact .method hv hf
    | body => exact ih.inBody
    | superclass | function => exact ih.move nofun rfl rfl (Scope.tail_introduceEach [_] _)
    | initializer => exact ih.move nofun rfl rfl (Scope.tail_declare ..)
    | elseBranch | otherStmts =>
      rw [Site.after_eq]
      exact ih.move nofun rfl rfl (Scope.tail_introduceEach ..)
    | _ => exact ih.same nofun

/-! ## Where `this` and `super` lead -/

namespace Site

variable {σ : Site}

/-- The scope of `this` around the method is the nearest one. -/
theorem Within.le_of_receiver (h : σ.Within f d) (hρ : σ.regions[e]? = some (.receiver g)) :
    d + 1 ≤ e := by
  rcases Nat.lt_trichotomy e d with he | rfl | he
  · cases h.between he hρ
  · cases h.body.symm.trans hρ
  · exact he

/-- Only one method is the innermost one around a site. -/
theorem Within.unique (h : σ.Within f d) (h' : σ.Within g e) : d = e ∧ f = g := by
  have hle := h.le_of_receiver h'.receiver
  have hge := h'.le_of_receiver h.receiver
  obtain rfl : d = e := by omega
  cases h.body.symm.trans h'.body
  exact ⟨rfl, rfl⟩

theorem InsideMethod.distance?_this (h : σ.InsideMethod f d)
    (hl : Layers (some k) σ.scopes σ.regions) :
    Scope.distance? σ.scopes "this" = some (d + 1) := by
  obtain ⟨e, g, hdist, -, hρ⟩ := hl.distance?_this
  have hle := Scope.le_of_distance? hdist h.this rfl
  rw [hdist, Nat.le_antisymm hle (h.le_of_receiver hρ)]

theorem InsideMethod.distance?_super (h : σ.InsideMethod f d)
    (hk : σ.around.classKind = some .derived)
    (hl : Layers (some .derived) σ.scopes σ.regions) :
    Scope.distance? σ.scopes "super" = some (d + 2) ∧
      ∃ name fs, σ.regions[d + 2]? = some (.superclass name fs) := by
  obtain ⟨e, g, name, fs, hdist, -, -, hρ, hρ'⟩ := hl.distance?_super
  have hle := Scope.le_of_distance? hdist (h.super hk) rfl
  have he : e = d + 1 := by have := h.le_of_receiver hρ; omega
  subst he
  exact ⟨hdist, name, fs, hρ'⟩

end Site

/-- Whether a node is a use of `this` or `super`. -/
def Node.isKeyword : Node → Bool
  | expr (.this _) | expr (.super _ _) => true
  | _ => false

namespace Fits

/-- `this` and `super` are used in classes only. -/
theorem classKind_of_isKeyword (h : Fits n σ) (hn : n.isKeyword) :
    ∃ k, σ.around.classKind = some k := by
  have hf := h.findings
  cases n with
  | expr e =>
    cases hc : σ.around.classKind with
    | some k => exact ⟨k, rfl⟩
    | none =>
      cases e with
      | this k => simp [Node.findings, Expr.resolve, hc] at hf
      | super k m => simp [Node.findings, Expr.resolve, Enclosing.superFindings, hc] at hf
      | _ => cases hn
  | _ => cases hn

theorem expr_this (h : Fits (.expr (.this k)) σ) (hw : σ.InsideMethod f d) :
    σ.expr (.this k) = .this ⟨k.name, some (d + 1)⟩ ∧ k.name.lexeme = "this" := by
  have hk := h.wellFormed
  simp only [Node.WellFormed, Expr.WellFormed] at hk
  obtain ⟨kind, hc⟩ := h.classKind_of_isKeyword rfl
  have hthis := hw.distance?_this (hc ▸ h.layers)
  exact ⟨by simp [Site.expr, Expr.resolve, hc, Reference.resolve, hk.hops, hk.name, hthis], hk.name⟩

theorem expr_super (h : Fits (.expr (.super k m)) σ) (hw : σ.InsideMethod f d) :
    σ.expr (.super k m) = .super ⟨k.name, some (d + 2)⟩ m ∧
      σ.scopes[d + 2]? = some [("super", true)] ∧
      ∃ name fs, σ.regions[d + 2]? = some (.superclass name fs) := by
  have hk := h.wellFormed
  have hf := h.findings
  simp only [Node.WellFormed, Expr.WellFormed, Node.findings, Expr.resolve,
    Enclosing.superFindings] at hk hf
  obtain ⟨kind, hc⟩ := h.classKind_of_isKeyword rfl
  cases kind with
  | base => simp [hc] at hf
  | derived =>
    obtain ⟨hsuper, hregion⟩ := hw.distance?_super hc (hc ▸ h.layers)
    exact ⟨by simp [Reference.resolve, hk.hops, hk.name, hsuper], hw.super hc, hregion⟩

end Fits

/-- A use of `this` or `super` stands in a method of a class declaration. -/
theorem Visited.exists_methodOf (h : Visited roots n σ) (hw : Walked (Visited roots))
    (hn : n.isKeyword) :
    ∃ name r fs f d, MethodOf (Visited roots) name r fs f ∧ σ.InsideMethod f d := by
  obtain ⟨kind, hkind⟩ := (hw.fits h).classKind_of_isKeyword hn
  cases h.placed with
  | outside hnone => rw [hnone] at hkind; cases hkind
  | method => cases hn
  | inside hf hinside => exact ⟨_, _, _, _, _, hf, hinside⟩

/-- The scopes of the keywords are around every use of `this` or `super` in a method. -/
theorem Visited.insideMethod (h : Visited roots n σ) (hw : Walked (Visited roots))
    (hn : n.isKeyword) (hin : σ.Within f d) : σ.InsideMethod f d := by
  obtain ⟨_, _, _, _, _, -, hinside⟩ := h.exists_methodOf hw hn
  obtain ⟨rfl, rfl⟩ := hinside.unique hin
  exact hinside

end LoxLang
