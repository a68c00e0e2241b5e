import LoxLang.Proofs.Calls
import LoxLang.Proofs.Mirror

/-!
# Values of a heap

What a heap holds: values in frames and fields, and methods in classes. What is true of all of them
(`Heap.HoldsOnly`) stays true when a heap grows, if it is true of what is added.
-/

namespace LoxLang

/-- All values in the frames and fields of a heap are `P`, and all methods of its classes are
`Q`. -/
structure Heap.HoldsOnly (P : Value → Prop) (Q : Nat → Prop) (h : Heap) : Prop where
  values {i : Nat} {x : String} {v : Value} : h.frames.lookup? i x = some v → P v
  methods {i : Nat} {c : Class} {x : String} {k : Nat} : h.classes[i]? = some c →
    c.methods.get? x = some k → Q k
  fields {i : Nat} {o : Instance} {x : String} {v : Value} : h.instances[i]? = some o →
    o.fields.get? x = some v → P v

/-- At the start, the only name is that of the clock. -/
theorem Heap.clock_of_initial (h : Heap.initial.frames.lookup? i x = some v) :
    x = "clock" ∧ v = .clock := by
  obtain ⟨f, hf, hv⟩ := Option.bind_eq_some_iff.1 h
  obtain ⟨hi, rfl⟩ := Array.getElem?_eq_some_iff.1 hf
  obtain rfl : i = 0 := by have : i < 1 := hi; omega
  rw [show (Heap.initial.frames.all[0]).bindings = [("clock", .clock)] from rfl,
    Bindings.get?_cons] at hv
  split at hv
  · next hx => cases hv; exact ⟨hx.symm, rfl⟩
  · cases hv

namespace Heap.HoldsOnly

variable {P : Value → Prop} {Q : Nat → Prop} {h : Heap}

theorem enclose (hh : h.HoldsOnly P Q) (outer : Nat) {bs : Bindings Value}
    (hbs : ∀ x v, bs.get? x = some v → P v) : (h.enclose outer bs).2.HoldsOnly P Q where
  values {i x v} hv := by
    by_cases hi : i < h.frames.all.size
    · have hold : (h.enclose outer bs).2.frames.lookup? i x = h.frames.lookup? i x :=
        congrArg (Option.bind · _) (Frames.frame?_make_of_lt hi ..)
      exact hh.values (hold ▸ hv)
    · obtain ⟨f, hf, hx⟩ := Option.bind_eq_some_iff.1 hv
      obtain rfl : i = h.frames.all.size := by
        have := Frames.lt_of_frame? hf
        simp [Heap.enclose, Frames.make] at this
        omega
      have hnew : (h.enclose outer bs).2.frames.frame? h.frames.all.size = some ⟨some outer, bs⟩ :=
        Frames.frame?_make_self ..
      cases hnew.symm.trans hf
      exact hbs x v hx
  methods := hh.methods
  fields := hh.fields

theorem encloseOne (hh : h.HoldsOnly P Q) (hv : P v) (outer : Nat) (x : String) :
    (h.enclose outer [(x, v)]).2.HoldsOnly P Q :=
  hh.enclose outer fun _ _ hy => (Bindings.of_get?_single hy).2 ▸ hv

theorem define (hh : h.HoldsOnly P Q) (hv : P v) (i : Nat) (x : String) :
    (h.define i x v).HoldsOnly P Q where
  values {j y u} hu := by
    by_cases hij : i = j ∧ y = x
    · obtain ⟨rfl, rfl⟩ := hij
      by_cases hi : i < h.frames.all.size
      · rw [Heap.define, Frames.lookup?_define_self hi] at hu
        cases hu
        exact hv
      · obtain ⟨f, hf, -⟩ := Option.bind_eq_some_iff.1 hu
        have := Frames.lt_of_frame? hf
        simp [Heap.define, Frames.define] at this
        omega
    · rw [Heap.define, Frames.lookup?_define_of_ne _ (Decidable.not_and_iff_or_not.1 hij)] at hu
      exact hh.values hu
  methods := hh.methods
  fields := hh.fields

theorem initial (hclock : P .clock) : Heap.initial.HoldsOnly P Q :=
  ⟨fun hv => (Heap.clock_of_initial hv).2 ▸ hclock, nofun, nofun⟩

theorem mono {P' : Value → Prop} {Q' : Nat → Prop} (hh : h.HoldsOnly P Q)
    (hP : ∀ v, P v → P' v) (hQ : ∀ k, Q k → Q' k) : h.HoldsOnly P' Q' where
  values hv := hP _ (hh.values hv)
  methods hc hk := hQ _ (hh.methods hc hk)
  fields ho hv := hP _ (hh.fields ho hv)

theorem addClosure (hh : h.HoldsOnly P Q) (c : Closure) : (h.addClosure c).2.HoldsOnly P Q :=
  ⟨hh.values, hh.methods, hh.fields⟩

theorem tick (hh : h.HoldsOnly P Q) : h.tick.HoldsOnly P Q :=
  ⟨hh.values, hh.methods, hh.fields⟩

theorem addClass (hh : h.HoldsOnly P Q) (hc : ∀ x k, c.methods.get? x = some k → Q k) :
    (h.addClass c).2.HoldsOnly P Q where
  values := hh.values
  methods {i d x k} hd hk := by
    simp only [Heap.addClass, Array.getElem?_push] at hd
    split at hd
    · cases hd
      exact hc x k hk
    · exact hh.methods hd hk
  fields := hh.fields

theorem addInstance (hh : h.HoldsOnly P Q) (cls : Nat) : (h.addInstance cls).2.HoldsOnly P Q where
  values := hh.values
  methods := hh.methods
  fields {i o x v} ho hv := by
    simp only [Heap.addInstance, Array.getElem?_push] at ho
    split at ho
    · cases ho
      cases hv
    · exact hh.fields ho hv

theorem setField (hh : h.HoldsOnly P Q) (hv : P v) (object : Nat) (name : String) :
    (h.setField object name v).HoldsOnly P Q where
  values := hh.values
  methods := hh.methods
  fields {i o x u} ho hu := by
    simp only [Heap.setField, Array.getElem?_modify] at ho
    split at ho
    · obtain ⟨o', ho', rfl⟩ := Option.map_eq_some_iff.1 ho
      by_cases hx : x = name
      · rw [hx, Bindings.get?_insert_self] at hu
        cases hu
        exact hv
      · rw [Bindings.get?_insert_of_ne hx] at hu
        exact hh.fields ho' hu
    · exact hh.fields ho hu

/-- The methods that instances have. -/
theorem method? (hh : h.HoldsOnly P Q) (hm : h.method? cls x = some k) : Q k := by
  obtain ⟨i, c, -, hc, hk⟩ := Heap.class_of_method? hm
  exact hh.methods hc hk

end Heap.HoldsOnly

end LoxLang
