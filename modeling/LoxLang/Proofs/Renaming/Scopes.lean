import LoxLang.Proofs.Renaming.Trees

/-!
# Renaming in scopes

When the scope of the declaration has its name renamed (`renameScopes`), every reference finds its
declaration as far out as before (`Reference.resolve_rename`).
-/

namespace LoxLang

namespace Renaming

variable (φ : Renaming)

@[simp] theorem name_false (x : String) : φ.name false x = x := by simp [name]

theorem name_of_ne (h : x ≠ φ.old) (bound : Bool) : φ.name bound x = x := by simp [name, h]

@[simp] theorem name_this (bound : Bool) : φ.name bound "this" = "this" :=
  φ.name_of_ne φ.old_identifier.ne_this.symm bound

@[simp] theorem name_super (bound : Bool) : φ.name bound "super" = "super" :=
  φ.name_of_ne φ.old_identifier.ne_super.symm bound

/-- Two names stay different unless one is the new name. -/
theorem name_inj (hx : x ≠ φ.new) (hz : z ≠ φ.new) (bound : Bool) :
    φ.name bound x = φ.name bound z ↔ x = z := by
  unfold name
  grind

end Renaming

section

variable {φ : Renaming}

namespace Token

@[simp] theorem lexeme_rename (t : Token) (bound : Bool) :
    (t.rename φ bound).lexeme = φ.name bound t.lexeme := rfl

@[simp] theorem rename_false (t : Token) : t.rename φ false = t := by
  simp [rename]

theorem rename_of_ne {t : Token} (h : t.lexeme ≠ φ.old) (bound : Bool) :
    t.rename φ bound = t := by
  simp [rename, φ.name_of_ne h]

end Token

namespace Reference

variable {r : Reference} {inside : Option Nat}

@[simp] theorem rename_none (r : Reference) : r.rename φ none = r := by
  simp [rename]

theorem rename_of_ne (h : r.name.lexeme ≠ φ.old) : r.rename φ inside = r := by
  simp only [rename, Token.rename_of_ne h]

theorem rename_of_global (hr : r.hops = none) : r.rename φ inside = r := by
  obtain ⟨name, hops⟩ := r
  obtain rfl : hops = none := hr
  cases inside <;> simp [rename]

/-- A reference is renamed if it has as many hops as there are scopes between. -/
theorem lexeme_rename (hr : r.hops = some d) :
    (r.rename φ inside).name.lexeme = φ.name (inside = some d) r.name.lexeme := by
  have hbound : (inside.isSome ∧ r.hops = inside) ↔ inside = some d := by
    rw [hr]
    cases inside <;> simp [eq_comm]
  simp only [rename, Token.lexeme_rename, hbound]

end Reference

end

@[simp] theorem deeper_none (scopes : Nat) : deeper scopes none = none := rfl

@[simp] theorem deeper_zero (inside : Option Nat) : deeper 0 inside = inside := by
  cases inside <;> rfl

@[simp] theorem deeper_deeper (n k : Nat) (inside : Option Nat) :
    deeper n (deeper k inside) = deeper (k + n) inside := by
  cases inside <;> simp [deeper, Nat.add_assoc]

theorem deeper_ne_zero (n : Nat) (inside : Option Nat) : deeper (n + 1) inside ≠ some 0 := by
  cases inside with
  | none => nofun
  | some k => simp [deeper]

namespace Bindings

variable {α : Type} {φ : Renaming} {bound : Bool} {bs : Bindings α}

/-- The bindings with their names changed. -/
def rename (φ : Renaming) (bound : Bool) (bs : Bindings α) : Bindings α :=
  bs.map fun (n, a) => (φ.name bound n, a)

@[simp] theorem rename_false (bs : Bindings α) : bs.rename φ false = bs := by
  simp [rename]

@[simp] theorem rename_cons (n : String) (a : α) (bs : Bindings α) :
    rename φ bound ((n, a) :: bs) = (φ.name bound n, a) :: bs.rename φ bound := rfl

theorem not_contains_cons (h : ¬contains x ((n, a) :: bs)) : n ≠ x ∧ ¬bs.contains x := by
  simp only [contains, get?_cons] at h
  split at h
  · exact absurd rfl h
  · next hn => exact ⟨hn, h⟩

theorem get?_rename (hbs : ¬bs.contains φ.new) (hz : z ≠ φ.new) (bound : Bool) :
    (bs.rename φ bound).get? (φ.name bound z) = bs.get? z := by
  induction bs with
  | nil => rfl
  | cons b bs ih =>
    obtain ⟨n, a⟩ := b
    obtain ⟨hn, hbs⟩ := not_contains_cons hbs
    simp only [rename_cons, get?_cons, φ.name_inj hn hz, ih hbs]

theorem contains_rename (hbs : ¬bs.contains φ.new) (hz : z ≠ φ.new) (bound : Bool) :
    (bs.rename φ bound).contains (φ.name bound z) = bs.contains z := by
  rw [contains, get?_rename hbs hz, contains]

/-- Nothing changes where the old name is not bound. -/
theorem rename_of_not_contains (hbs : ¬bs.contains φ.old) : bs.rename φ bound = bs := by
  induction bs with
  | nil => rfl
  | cons b bs ih =>
    obtain ⟨n, a⟩ := b
    obtain ⟨hn, hbs⟩ := not_contains_cons hbs
    rw [rename_cons, φ.name_of_ne hn, ih hbs]

theorem insert_rename (hbs : ¬bs.contains φ.new) (hz : z ≠ φ.new) (a : α) :
    (bs.rename φ bound).insert (φ.name bound z) a = (bs.insert z a).rename φ bound := by
  induction bs with
  | nil => rfl
  | cons b bs ih =>
    obtain ⟨n, b⟩ := b
    obtain ⟨hn, hbs⟩ := not_contains_cons hbs
    simp only [rename_cons, insert, φ.name_inj hn hz]
    split
    · rfl
    · rw [rename_cons, ih hbs]

end Bindings

/-! ## The scopes around a node -/

section

variable (φ : Renaming)

/-- The scopes around a node, with the scope of the declaration renamed. -/
def renameScopes : Option Nat → List Scope → List Scope
  | some 0, scope :: Γ => scope.rename φ true :: Γ
  | some (k + 1), scope :: Γ => scope :: renameScopes (some k) Γ
  | _, Γ => Γ

/-- No scope has the new name yet. -/
def Renaming.FreshIn (Γ : List Scope) : Prop := ∀ scope ∈ Γ, ¬scope.contains φ.new

end

variable {φ : Renaming} {inside : Option Nat} {Γ : List Scope}

@[simp] theorem renameScopes_none (Γ : List Scope) : renameScopes φ none Γ = Γ := by
  cases Γ <;> rfl

@[simp] theorem renameScopes_nil (inside : Option Nat) : renameScopes φ inside [] = [] := by
  unfold renameScopes
  split <;> first | rfl | contradiction

@[simp] theorem renameScopes_deeper (inside : Option Nat) (scope : Scope) (Γ : List Scope) :
    renameScopes φ (deeper 1 inside) (scope :: Γ) = scope :: renameScopes φ inside Γ := by
  cases inside with
  | none => rw [renameScopes_none]; rfl
  | some k => rfl

/-- A name is found as far out as before, if it is renamed with its scope. -/
theorem Scope.distance?_rename (hΓ : φ.FreshIn Γ) (hz : z ≠ φ.new) (inside : Option Nat) :
    distance? (renameScopes φ inside Γ)
      (φ.name (inside.isSome ∧ distance? Γ z = inside) z) = distance? Γ z := by
  induction Γ generalizing inside with
  | nil =>
    rw [renameScopes_nil, distance?_nil, distance?_nil]
  | cons scope Γ ih =>
    obtain ⟨hscope, hΓ⟩ := List.forall_mem_cons.1 hΓ
    match inside with
    | none => simp
    | some 0 =>
      simp only [renameScopes, distance?_cons]
      by_cases hc : scope.contains z
      · simp [hc, Bindings.contains_rename hscope hz]
      · have hrest := ih hΓ none
        by_cases hold : z = φ.old
        · have hsame : Bindings.rename φ true scope = scope :=
            Bindings.rename_of_not_contains (hold ▸ hc)
          simp [hc, hsame]
        · have hname := φ.name_of_ne hold
          have := Bindings.contains_rename hscope hz true
          rw [hname] at this
          simp [hname, this, hc]
    | some (k + 1) =>
      have hrest := ih hΓ (some k)
      simp only [renameScopes, distance?_cons]
      by_cases hc : scope.contains z
      · simp [hc]
      · have hk : (distance? Γ z).map (· + 1) = some (k + 1) ↔ distance? Γ z = some k := by
          cases distance? Γ z <;> simp
        have hno (bound : Bool) : ¬scope.contains (φ.name bound z) := by
          unfold Renaming.name
          split
          · exact hscope
          · exact hc
        simp only [Option.isSome_some, true_and] at hrest
        simp [hc, hk, hno, hrest]

/-- A reference has the hops that it had. -/
theorem Reference.resolve_rename (hΓ : φ.FreshIn Γ) (hr : r.hops = none)
    (hz : r.name.lexeme ≠ φ.new) :
    ((Reference.resolve Γ r).rename φ inside).bare.resolve (renameScopes φ inside Γ) =
      (r.resolve Γ).rename φ inside := by
  obtain ⟨name, hops⟩ := r
  obtain rfl : hops = none := hr
  have := Scope.distance?_rename hΓ hz inside
  simpa [Reference.resolve, Reference.rename, Reference.bare, Token.rename] using this

namespace Scope

theorem declare_rename (hΓ : φ.FreshIn Γ) (hz : z ≠ φ.new) (inside : Option Nat) :
    declare (φ.name (inside = some 0) z) (renameScopes φ inside Γ) =
      renameScopes φ inside (declare z Γ) := by
  match Γ, inside with
  | [], _ => simp [declare]
  | scope :: Γ, none => simp [declare]
  | scope :: Γ, some 0 =>
    simp [declare, renameScopes, Bindings.insert_rename (hΓ scope List.mem_cons_self) hz]
  | scope :: Γ, some (k + 1) => simp [declare, renameScopes]

theorem define_rename (hΓ : φ.FreshIn Γ) (hz : z ≠ φ.new) (inside : Option Nat) :
    define (φ.name (inside = some 0) z) (renameScopes φ inside Γ) =
      renameScopes φ inside (define z Γ) := by
  match Γ, inside with
  | [], _ => simp [define]
  | scope :: Γ, none => simp [define]
  | scope :: Γ, some 0 =>
    simp [define, renameScopes, Bindings.insert_rename (hΓ scope List.mem_cons_self) hz]
  | scope :: Γ, some (k + 1) => simp [define, renameScopes]

theorem redeclares_rename (hΓ : φ.FreshIn Γ) (hz : z ≠ φ.new) (inside : Option Nat) :
    redeclares (φ.name (inside = some 0) z) (renameScopes φ inside Γ) = redeclares z Γ := by
  match Γ, inside with
  | [], _ => simp [redeclares]
  | scope :: Γ, none => simp [redeclares]
  | scope :: Γ, some 0 =>
    simp [redeclares, renameScopes, Bindings.contains_rename (hΓ scope List.mem_cons_self) hz]
  | scope :: Γ, some (k + 1) => simp [redeclares, renameScopes]

/-- A name may be read if it could before. -/
theorem unready_rename (hΓ : φ.FreshIn Γ) (hz : z ≠ φ.new) (inside : Option Nat) :
    unready (φ.name (inside.isSome ∧ distance? Γ z = inside) z) (renameScopes φ inside Γ) =
      unready z Γ := by
  match Γ, inside with
  | [], _ => simp [unready]
  | scope :: Γ, none => simp
  | scope :: Γ, some 0 =>
    have hscope := hΓ scope List.mem_cons_self
    simp only [renameScopes, distance?_cons, unready]
    by_cases hc : scope.contains z
    · simp [hc, Bindings.get?_rename hscope hz]
    · by_cases hold : z = φ.old
      · simp [hc, Bindings.rename_of_not_contains (hold ▸ hc : ¬scope.contains φ.old)]
      · have := Bindings.get?_rename hscope hz true
        rw [φ.name_of_ne hold] at this ⊢
        rw [this]
  | scope :: Γ, some (k + 1) =>
    have hscope := hΓ scope List.mem_cons_self
    simp only [renameScopes, distance?_cons, unready]
    by_cases hc : scope.contains z
    · simp [hc]
    · have hnone {x : String} (hx : ¬scope.contains x) : scope.get? x = none := by
        simpa [Bindings.contains] using hx
      have hname (bound : Bool) : scope.get? (φ.name bound z) = none := by
        unfold Renaming.name
        split
        · exact hnone hscope
        · exact hnone hc
      simp only [hname, hnone hc]

end Scope

end LoxLang
