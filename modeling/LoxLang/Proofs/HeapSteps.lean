import LoxLang.Proofs.HeldValues
import LoxLang.Proofs.Invariant

/-!
# Sound heaps

What keeps a heap sound (`HeapOk`): making frames, closures, classes and instances
(`HeapOk.enclose`, `HeapOk.addClosure`, `HeapOk.addClass`, `HeapOk.addInstance`), and storing values
in frames and fields (`HeapOk.define`, `HeapOk.setField`).
-/

namespace LoxLang

section
variable {V V' : Node → Site → Prop} (hV : ∀ f σ, V (.function f) σ → V' (.function f) σ)
include hV

theorem Callable.mono (hc : Callable V R h c) : Callable V' R h c := by
  cases hc with
  | intro hf ha hi => exact .intro (hV _ _ hf) ha hi

theorem Method.mono (hm : Method V R h c) : Method V' R h c := by
  cases hm with
  | intro hf hs hr hm => exact .intro (hV _ _ hf) hs hr hm

theorem ValueOk.mono (hv : ValueOk V R h v) : ValueOk V' R h v := by
  cases v with
  | closure i =>
    obtain ⟨c, hc, hcall⟩ := hv
    exact ⟨c, hc, hcall.mono hV⟩
  | object i => exact hv
  | _ => trivial

/-- Of what was visited a heap depends on the functions only. -/
theorem HeapOk.mono (hh : HeapOk V R h) : HeapOk V' R h where
  size := hh.size
  globals := hh.globals
  region := hh.region
  values hv := (hh.values hv).mono hV
  supers := hh.supers
  methods hc hk := by
    obtain ⟨m, hm, hmethod⟩ := hh.methods hc hk
    exact ⟨m, hm, hmethod.mono hV⟩
  fields ho hv := (hh.fields ho hv).mono hV

end

namespace HeapOk

variable {V : Node → Site → Prop} {R : List Region} {h : Heap}

theorem region_lt (hh : HeapOk V R h) (hρ : R[i]? = some ρ) : i < h.frames.all.size :=
  hh.size ▸ (List.getElem?_eq_some_iff.1 hρ).1

/-- What a sound heap holds, seen from a heap it grows into. -/
theorem holds (hh : HeapOk V R h) (hg : Grows R h R' h') :
    h.HoldsOnly (ValueOk V R' h') fun k => ∃ m, h'.closures[k]? = some m ∧ Method V R' h' m where
  values hv := (hh.values hv).grows hg
  methods hc hk := by
    obtain ⟨m, hm, hmethod⟩ := hh.methods hc hk
    exact ⟨m, hg.closures hm, hmethod.grows hg⟩
  fields ho hv := (hh.fields ho hv).grows hg

theorem enclose (hh : HeapOk V R h) (ρ : Region) (outer : Nat) (bs : Bindings Value)
    (hbs : ∀ x v, bs.get? x = some v → ValueOk V R h v)
    (hsuper : ∀ name fs, ρ = .superclass name fs → ∃ c, bs.get? "super" = some (.cls c)) :
    HeapOk V (R ++ [ρ]) (h.enclose outer bs).2 := by
  have hg := Grows.enclose R h ρ outer bs
  have hold {i : Nat} (hi : i < h.frames.all.size) (x : String) :
      (h.enclose outer bs).2.frames.lookup? i x = h.frames.lookup? i x :=
    congrArg (Option.bind · _) (Frames.frame?_make_of_lt hi ..)
  have hnew (x : String) :
      (h.enclose outer bs).2.frames.lookup? h.frames.all.size x = bs.get? x :=
    congrArg (Option.bind · _) (Frames.frame?_make_self ..)
  have hsize : (h.enclose outer bs).2.frames.all.size = h.frames.all.size + 1 :=
    Array.size_push _
  have hholds := (hh.holds hg).enclose outer fun x v hx => (hbs x v hx).grows hg
  exact {
    size := by rw [hsize, List.length_append, hh.size]; rfl
    globals := by
      obtain ⟨gs, hgs⟩ := hh.globals
      exact ⟨gs, (Frames.frame?_make_of_lt (Frames.lt_of_frame? hgs) ..).trans hgs⟩
    region := hg.regions hh.region
    values := hholds.values
    supers := by
      intro i name fs hi
      rcases Nat.lt_or_ge i R.length with hlt | hge
      · rw [List.getElem?_append_left hlt] at hi
        rw [hold (hh.region_lt hi)]
        exact hh.supers hi
      · rw [List.getElem?_append_right hge] at hi
        obtain ⟨h0, hρ⟩ := List.getElem?_eq_some_iff.1 hi
        have h0 : i - R.length < 1 := h0
        have : i = h.frames.all.size := by have := hh.size; omega
        rw [this, hnew]
        exact hsuper name fs (by simpa using hρ)
    methods := hholds.methods
    fields := hholds.fields }

theorem define (hh : HeapOk V R h) (hx : x ≠ "super")
    (hv : ValueOk V R (h.define i x v) v) : HeapOk V R (h.define i x v) := by
  have hg := Grows.define R h i x v
  have hholds := (hh.holds hg).define hv i x
  exact {
    size := by simpa [Heap.define, Frames.define] using hh.size
    globals := by
      obtain ⟨gs, hgs⟩ := hh.globals
      obtain ⟨gs', hgs', -⟩ := hg.frames hgs
      exact ⟨gs', hgs'⟩
    region := hh.region
    values := hholds.values
    supers := by
      intro j name fs hj
      rw [Heap.define, Frames.lookup?_define_of_ne _ (.inr hx.symm)]
      exact hh.supers hj
    methods := hholds.methods
    fields := hholds.fields }

theorem addClosure (hh : HeapOk V R h) (c : Closure) : HeapOk V R (h.addClosure c).2 := by
  have hg := Grows.addClosure R h c
  have hholds := (hh.holds hg).addClosure c
  exact {
    size := hh.size
    globals := hh.globals
    region := hh.region
    values := hholds.values
    supers := hh.supers
    methods := hholds.methods
    fields := hholds.fields }

theorem addClass (hh : HeapOk V R h) (hc : ∀ x k, c.methods.get? x = some k →
    ∃ m, h.closures[k]? = some m ∧ Method V R h m) : HeapOk V R (h.addClass c).2 := by
  have hg := Grows.addClass R h c
  have hholds := (hh.holds hg).addClass fun x k hk => by
    obtain ⟨m, hm, hmethod⟩ := hc x k hk
    exact ⟨m, hm, hmethod.grows hg⟩
  exact {
    size := hh.size
    globals := hh.globals
    region := hh.region
    values := hholds.values
    supers := hh.supers
    methods := hholds.methods
    fields := hholds.fields }

theorem addInstance (hh : HeapOk V R h) (cls : Nat) : HeapOk V R (h.addInstance cls).2 := by
  have hg := Grows.addInstance R h cls
  have hholds := (hh.holds hg).addInstance cls
  exact {
    size := hh.size
    globals := hh.globals
    region := hh.region
    values := hholds.values
    supers := hh.supers
    methods := hholds.methods
    fields := hholds.fields }

theorem setField (hh : HeapOk V R h) (hv : ValueOk V R h v) :
    HeapOk V R (h.setField object name v) := by
  have hg := Grows.setField R h object name v
  have hholds := (hh.holds hg).setField (hv.grows hg) object name
  exact {
    size := hh.size
    globals := hh.globals
    region := hh.region
    values := hholds.values
    supers := hh.supers
    methods := hholds.methods
    fields := hholds.fields }

theorem tick (hh : HeapOk V R h) : HeapOk V R h.tick := by
  have hholds := hh.holds (.tick R h)
  exact {
    size := hh.size
    globals := hh.globals
    region := hh.region
    values := hholds.values
    supers := hh.supers
    methods := hholds.methods
    fields := hholds.fields }

/-- The methods that instances have. -/
theorem method? (hh : HeapOk V R h) (hm : h.method? cls name = some k) :
    ∃ m, h.closures[k]? = some m ∧ Method V R h m :=
  (hh.holds (.refl R h)).method? hm

end HeapOk

end LoxLang
