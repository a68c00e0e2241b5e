import LoxLang.Machine.Step

/-!
# What a call finds

The parameters of a call are bound to its arguments (`mem_of_bindParameters`), and a method that is
found is one of a class that the chain of superclasses leads to (`class_of_method?`).
-/

namespace LoxLang

namespace Machine

theorem contains_bindParameters (hlen : vs.length = ps.length) :
    (bindParameters ps vs bs).contains x ↔ (∃ p ∈ ps, p.lexeme = x) ∨ bs.contains x := by
  induction ps generalizing vs bs with
  | nil => simp [bindParameters]
  | cons p ps ih =>
    cases vs with
    | nil => cases hlen
    | cons v vs =>
      rw [bindParameters, ih (Nat.succ.inj hlen)]
      simp only [Bindings.contains_insert, List.mem_cons, exists_eq_or_imp, Bool.or_eq_true,
        decide_eq_true_eq, eq_comm (a := x)]
      grind

theorem mem_of_bindParameters (h : (bindParameters ps vs bs).get? x = some v) :
    v ∈ vs ∨ bs.get? x = some v := by
  induction ps generalizing vs bs with
  | nil => exact .inr (by simpa [bindParameters] using h)
  | cons p ps ih =>
    cases vs with
    | nil => exact .inr h
    | cons u vs =>
      rw [bindParameters] at h
      rcases ih h with hv | hv
      · exact .inl (List.mem_cons_of_mem _ hv)
      · by_cases hx : x = p.lexeme
        · rw [hx, Bindings.get?_insert_self] at hv
          exact .inl (Option.some.inj hv ▸ List.mem_cons_self)
        · rw [Bindings.get?_insert_of_ne hx] at hv
          exact .inr hv

end Machine

namespace Heap

/-- The second class is the first one, or it is reached from it along superclasses. -/
inductive Descends (h : Heap) : Nat → Nat → Prop where
  | refl : Descends h i i
  | up : h.classes[i]? = some c → c.superclass = some p → Descends h p j → Descends h i j

theorem Descends.trans {h : Heap} (h₁ : h.Descends i j) (h₂ : h.Descends j k) : h.Descends i k := by
  induction h₁ with
  | refl => exact h₂
  | up hc hp _ ih => exact .up hc hp (ih h₂)

/-- The methods that instances have are methods of their class or of a class further up. -/
theorem class_of_method? {h : Heap} (hm : h.method? cls x = some k) :
    ∃ (i : Nat) (c : Class), h.Descends cls i ∧ h.classes[i]? = some c ∧
      c.methods.get? x = some k := by
  have hwithin (n i : Nat) (hm : h.methodWithin x n i = some k) :
      ∃ (j : Nat) (c : Class), h.Descends i j ∧ h.classes[j]? = some c ∧
        c.methods.get? x = some k := by
    induction n generalizing i with
    | zero => cases hm
    | succ n ih =>
      simp only [methodWithin] at hm
      split at hm
      · cases hm
      · next c hc =>
        split at hm
        · next k' hk =>
          cases hm
          exact ⟨i, c, .refl, hc, hk⟩
        · split at hm
          · cases hm
          · next p hp =>
            obtain ⟨j, d, hd⟩ := ih p hm
            exact ⟨j, d, .up hc hp hd.1, hd.2⟩
  exact hwithin _ _ hm

end Heap

end LoxLang
