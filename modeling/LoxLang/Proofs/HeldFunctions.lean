import LoxLang.Proofs.Holdings

/-!
# Functions that are held

The functions that a machine holds as values, in its task, in what waits and in its heap, are of two
kinds (`Made`). A function statement makes one, and binding a method makes one; the methods of
classes are never held as they are (`Met.holdsMade`).
-/

namespace LoxLang

/-- What a value is about, if it is a function: its closure is one of those. -/
def Value.Only (Q : Nat → Prop) : Value → Prop
  | .closure k => Q k
  | _ => True

theorem Value.Only.of_ne {v : Value} (h : ∀ k, v ≠ .closure k) : v.Only Q := by
  cases v with
  | closure k => exact absurd rfl (h k)
  | _ => trivial

theorem Value.Only.mono {v : Value} (h : v.Only Q) (hQ : ∀ k, Q k → Q' k) : v.Only Q' := by
  cases v with
  | closure k => exact hQ k h
  | _ => trivial

/-- The values in a construct that waits. -/
def Waiting.values : Waiting → List Value
  | binary left _ => [left]
  | argument v _ before _ => v :: before
  | _ => []

namespace Machine

/-- The functions among the values of a machine. -/
structure HoldsOnly (Q : Nat → Prop) (m : Machine) : Prop where
  control : ∀ v ∈ m.control.values, v.Only Q
  waiting : ∀ w ∈ m.stack.items, ∀ v ∈ w.values, v.Only Q
  heap : m.heap.HoldsOnly (Value.Only Q) fun _ => True

namespace HoldsOnly

variable {Q Q' : Nat → Prop} {m : Machine}

theorem mono (h : m.HoldsOnly Q) (hQ : ∀ k, Q k → Q' k) : m.HoldsOnly Q' where
  control v hv := (h.control v hv).mono hQ
  waiting w hw v hv := (h.waiting w hw v hv).mono hQ
  heap := h.heap.mono (fun _ hv => hv.mono hQ) fun _ => id

theorem iff_holdsAll : m.HoldsOnly Q ↔ m.HoldsAll (Value.Only Q) := by
  refine ⟨fun h => ⟨h.control, fun w hw v hv => ?_, h.heap⟩,
    fun h => ⟨h.control, fun w hw v hv => h.waiting w hw v ?_, h.heap⟩⟩
  · have hvalues := h.waiting w hw
    cases w with
    | binary | argument => exact hvalues v hv
    | setValue => exact List.mem_singleton.1 hv ▸ trivial
    | activation caller result =>
      cases result with
      | created => exact List.mem_singleton.1 hv ▸ trivial
      | _ => cases hv
    | _ => cases hv
  · cases w with
    | binary | argument => exact hv
    | _ => cases hv

theorem calls (h : m.HoldsOnly Q) (hc : m.Calls (.closure k) as) : Q k :=
  (iff_holdsAll.1 h).calls hc

/-- A step gets hold of no function but one that it makes. -/
theorem step (h : m.HoldsOnly Q) (s : Setting)
    (hnew : m.MakesFunction → Q m.heap.closures.size) : (m.step s).HoldsOnly Q := by
  have hplain (v : Value) (hv : v.isPlain) : v.Only Q :=
    .of_ne fun k he => by rw [he] at hv; cases hv
  refine iff_holdsAll.2 ((iff_holdsAll.1 h).step hplain s fun v hv => ?_)
  cases hv with
  | function hf => exact hnew hf
  | declaration | creation => trivial

end HoldsOnly

/-! ## Sessions -/

/-- A closure is a function that a step of a session made. -/
def Made (P : Control → Prop) (b : Machine) (k : Nat) : Prop :=
  ∃ a s, Met P a ∧ (a.step s).Later P b ∧ a.heap.closures.size = k ∧ a.MakesFunction

/-- In a session whose tasks hold no values, the functions that are held were made earlier: each by
a function statement, or by binding a method. -/
theorem Met.holdsMade {P : Control → Prop} {b : Machine} (h : Met P b)
    (hP : ∀ task, P task → task.values = []) : b.HoldsOnly (b.Made P) := by
  refine h.induct (Q := fun b => b.HoldsOnly (b.Made P)) (fun task ht => ?_)
    (fun m s hm ih => ?_) fun m task hm ih ht => ?_
  · refine ⟨?_, List.forall_mem_nil _, .initial trivial⟩
    rw [Memory.start, hP task ht]
    exact List.forall_mem_nil _
  · refine HoldsOnly.step (ih.mono ?_) s fun hmakes => ⟨m, s, hm, .refl, rfl, hmakes⟩
    rintro k ⟨a, s', ha, hlater, hk⟩
    exact ⟨a, s', ha, .step s hlater, hk⟩
  · refine ⟨?_, List.forall_mem_nil _, ?_⟩
    · rw [Memory.start, hP task ht]
      exact List.forall_mem_nil _
    · refine ih.heap.mono (fun v hv => hv.mono ?_) fun _ => id
      rintro k ⟨a, s', ha, hlater, hk⟩
      exact ⟨a, s', ha, .next hlater ht, hk⟩

end Machine

end LoxLang
