import LoxLang.Proofs.Renaming.Heaps
import LoxLang.Proofs.Braces.Alike

/-!
# Heaps beside added braces

Heaps stay alike when the same is made in both (`make`, `addClosure`, `addInstance`), when the same
is stored in frames and fields (`define`, `setField`), and when the second machine enters the braces
(`make_right`).
-/

namespace LoxLang.Braces

variable {ρ : List Nat} {h h' : Heap}

namespace HeapAlike

/-- Nobody can tell the two heaps apart without calling their functions. -/
theorem looks (hh : HeapAlike ρ h h') : h.LooksAlike h' :=
  ⟨hh.closures, hh.classes, hh.instances⟩

/-- What the first heap holds, seen from heaps the two grow into. -/
theorem holds (hh : HeapAlike ρ h h') (e : Extends ρ h h' ρ₁ h₁ h₁') :
    h.HoldsOnly (Shared ρ₁ h₁ h₁') (ClosuresAlike ρ₁ h₁ h₁' 1) :=
  ⟨fun hv => (hh.values hv).extends e, fun hc hk => (hh.methods hc hk).extends e,
    fun ho hv => (hh.fields ho hv).extends e⟩

/-- The methods that instances have. -/
theorem method? (hh : HeapAlike ρ h h') (hm : h.method? cls x = some k) :
    ClosuresAlike ρ h h' 1 k :=
  (hh.holds (.refl ρ h h')).method? hm

/-! ## Variables -/

theorem holder?_globals (hh : HeapAlike ρ h h') (x : String) :
    h'.frames.holder? Heap.globals x = h.frames.holder? Heap.globals x := by
  obtain ⟨bs, hbs, hbs'⟩ := hh.globals
  simp only [Frames.holder?, Frames.holderWithin, hbs, hbs']

theorem holder?_eq_globals (hh : HeapAlike ρ h h')
    (hj : h.frames.holder? Heap.globals x = some j) : j = Heap.globals := by
  obtain ⟨bs, hbs, -⟩ := hh.globals
  simp only [Frames.holder?, Frames.holderWithin, hbs] at hj
  split at hj <;> cases hj
  rfl

theorem get?_globals (hh : HeapAlike ρ h h') (x : String) :
    h'.frames.get? Heap.globals x = h.frames.get? Heap.globals x := by
  rw [Frames.get?, Frames.get?, hh.holder?_globals]
  cases hj : h.frames.holder? Heap.globals x with
  | none => rfl
  | some j =>
    rw [hh.holder?_eq_globals hj]
    exact hh.frames.lookup? hh.root x

end HeapAlike

/-! ## Making and storing -/

namespace FramesAlike

variable {fs fs' : Frames Value}

theorem lt_size {i i' : Nat} (hfs : FramesAlike ρ fs fs') (hi : ρ[i]? = some i') :
    i' < fs'.all.size := by
  obtain ⟨_, _, -, hf', -⟩ := hfs.bindings hi
  exact Frames.lt_of_frame? hf'

/-- Both machines make a frame. -/
theorem make (hfs : FramesAlike ρ fs fs') (outer outer' : Option Nat) (bs : Bindings Value) :
    FramesAlike (ρ ++ [fs'.all.size]) (fs.make outer bs).2 (fs'.make outer' bs).2 where
  size := by simp [Frames.make, hfs.size]
  nodup := by
    refine List.nodup_append.2 ⟨hfs.nodup, by simp, ?_⟩
    rintro j hj _ hnew rfl
    obtain ⟨i, hi⟩ := List.mem_iff_getElem?.1 hj
    exact Nat.ne_of_lt (hfs.lt_size hi) (List.mem_singleton.1 hnew)
  bindings {i i'} hi := by
    by_cases hold : i < ρ.length
    · rw [List.getElem?_append_left hold] at hi
      obtain ⟨f, f', hf, hf', hbs⟩ := hfs.bindings hi
      exact ⟨f, f', (Frames.frame?_make_of_lt (Frames.lt_of_frame? hf) ..).trans hf,
        (Frames.frame?_make_of_lt (Frames.lt_of_frame? hf') ..).trans hf', hbs⟩
    · rw [List.getElem?_append_right (Nat.le_of_not_lt hold), List.getElem?_singleton] at hi
      split at hi
      · next hlast =>
        cases hi
        obtain rfl : i = fs.all.size := by have := hfs.size; omega
        exact ⟨_, _, Frames.frame?_make_self .., Frames.frame?_make_self .., rfl⟩
      · cases hi

/-- The second machine makes a frame for the braces. -/
theorem make_right (hfs : FramesAlike ρ fs fs') (outer : Option Nat) (bs : Bindings Value) :
    FramesAlike ρ fs (fs'.make outer bs).2 where
  size := hfs.size
  nodup := hfs.nodup
  bindings hi := by
    obtain ⟨f, f', hf, hf', hbs⟩ := hfs.bindings hi
    exact ⟨f, f', hf, (Frames.frame?_make_of_lt (Frames.lt_of_frame? hf') ..).trans hf', hbs⟩

theorem define (hfs : FramesAlike ρ fs fs') (hi : ρ[i]? = some i') (x : String) (v : Value) :
    FramesAlike ρ (fs.define i x v) (fs'.define i' x v) where
  size := by simpa [Frames.define] using hfs.size
  nodup := hfs.nodup
  bindings {j j'} hj := by
    obtain ⟨f, f', hf, hf', hbs⟩ := hfs.bindings hj
    -- no two frames have one counterpart
    have heq : i = j ↔ i' = j' := by
      refine ⟨fun he => ?_, fun he => ?_⟩
      · subst he
        exact Option.some.inj (hi.symm.trans hj)
      · subst he
        obtain ⟨hlt, -⟩ := List.getElem?_eq_some_iff.1 hi
        exact (List.getElem?_inj hlt hfs.nodup).1 (hi.trans hj.symm)
    rw [Frames.frame?_define, Frames.frame?_define]
    by_cases hij : i = j
    · rw [if_pos hij, if_pos (heq.1 hij), hf, hf']
      exact ⟨_, _, rfl, rfl, congrArg (Bindings.insert x v) hbs⟩
    · rw [if_neg hij, if_neg (mt heq.2 hij)]
      exact ⟨f, f', hf, hf', hbs⟩

end FramesAlike

namespace HeapAlike

/-- Both machines make a frame inside frames that stand for one another. -/
theorem enclose (hh : HeapAlike ρ h h') (hp : Placed ρ h.frames h'.frames o outer outer')
    (bs : Bindings Value) (hbs : ∀ x v, bs.get? x = some v → Shared ρ h h' v) :
    ∃ ρ₁, Extends ρ h h' ρ₁ (h.enclose outer bs).2 (h'.enclose outer' bs).2 ∧
      HeapAlike ρ₁ (h.enclose outer bs).2 (h'.enclose outer' bs).2 ∧
      Placed ρ₁ (h.enclose outer bs).2.frames (h'.enclose outer' bs).2.frames (deeper 1 o)
        (h.enclose outer bs).1 (h'.enclose outer' bs).1 := by
  have hext : Extends ρ h h' (ρ ++ [h'.frames.all.size]) (h.enclose outer bs).2
      (h'.enclose outer' bs).2 :=
    ⟨(Grows.enclose [] h .globals outer bs).regionless,
      (Grows.enclose [] h' .globals outer' bs).regionless,
      fun hi => by rw [List.getElem?_append_left (List.getElem?_eq_some_iff.1 hi).1, hi]⟩
  have hnew : (ρ ++ [h'.frames.all.size])[h.frames.all.size]? = some h'.frames.all.size := by
    rw [← hh.frames.size, List.getElem?_concat_length]
  have hframe (h : Heap) (outer : Nat) :
      (h.enclose outer bs).2.frames.frame? h.frames.all.size = some ⟨some outer, bs⟩ :=
    Frames.frame?_make_self ..
  have hholds := (hh.holds hext).enclose outer fun x v hx => (hbs x v hx).extends hext
  have hkept {h : Heap} {outer i : Nat} (hi : i < h.frames.all.size) :
      (h.enclose outer bs).2.frames.frame? i = h.frames.frame? i := Frames.frame?_make_of_lt hi ..
  refine ⟨_, hext, ?_, .inner hnew (hframe h outer) (hframe h' outer') (hp.extends hext)⟩
  exact {
    frames := hh.frames.make (some outer) (some outer') bs
    root := hext.counterparts hh.root
    globals := by
      obtain ⟨gs, hgs, hgs'⟩ := hh.globals
      exact ⟨gs, (hkept (Frames.lt_of_frame? hgs)).trans hgs,
        (hkept (Frames.lt_of_frame? hgs')).trans hgs'⟩
    closures := hh.closures
    classes := hh.classes
    instances := hh.instances
    ticks := hh.ticks
    values := hholds.values
    methods := hholds.methods
    fields := hholds.fields }

/-- The second machine makes a frame for the braces. -/
theorem enclose_right (hh : HeapAlike ρ h h') (hp : Placed ρ h.frames h'.frames none i i') :
    Extends ρ h h' ρ h (h'.enclose i' []).2 ∧ HeapAlike ρ h (h'.enclose i' []).2 ∧
      Placed ρ h.frames (h'.enclose i' []).2.frames (some 0) i (h'.enclose i' []).1 := by
  have hext : Extends ρ h h' ρ h (h'.enclose i' []).2 :=
    ⟨.refl [] h, (Grows.enclose [] h' .globals i' []).regionless, id⟩
  have hholds := hh.holds hext
  refine ⟨hext, ?_, .braces (hp.extends hext) (Frames.frame?_make_self ..)⟩
  exact {
    frames := hh.frames.make_right (some i') []
    root := hh.root
    globals := by
      obtain ⟨gs, hgs, hgs'⟩ := hh.globals
      exact ⟨gs, hgs, (Frames.frame?_make_of_lt (Frames.lt_of_frame? hgs') ..).trans hgs'⟩
    closures := hh.closures
    classes := hh.classes
    instances := hh.instances
    ticks := hh.ticks
    values := hholds.values
    methods := hholds.methods
    fields := hholds.fields }

theorem define (hh : HeapAlike ρ h h') (hi : ρ[i]? = some i') (hv : Shared ρ h h' v) (x : String) :
    Extends ρ h h' ρ (h.define i x v) (h'.define i' x v) ∧
      HeapAlike ρ (h.define i x v) (h'.define i' x v) := by
  have hext : Extends ρ h h' ρ (h.define i x v) (h'.define i' x v) :=
    ⟨Grows.define .., Grows.define .., id⟩
  have hframes := hh.frames.define hi x v
  have hholds := (hh.holds hext).define (hv.extends hext) i x
  refine ⟨hext, ?_⟩
  exact {
    frames := hframes
    root := hh.root
    globals := by
      obtain ⟨gs, hgs, hgs'⟩ := hh.globals
      obtain ⟨bs, hbs, -⟩ := hext.left.frames hgs
      obtain ⟨bs', hbs', -⟩ := hext.right.frames hgs'
      obtain ⟨f, f', hf, hf', heq⟩ := hframes.bindings hh.root
      obtain rfl : f = ⟨none, bs⟩ := Option.some.inj (hf.symm.trans hbs)
      obtain rfl : f' = ⟨none, bs'⟩ := Option.some.inj (hf'.symm.trans hbs')
      exact ⟨bs, hbs, (show bs' = bs from heq) ▸ hbs'⟩
    closures := hh.closures
    classes := hh.classes
    instances := hh.instances
    ticks := hh.ticks
    values := hholds.values
    methods := hholds.methods
    fields := hholds.fields }

theorem addClosure (hh : HeapAlike ρ h h') (hc : c'.signature = c.signature) :
    Extends ρ h h' ρ (h.addClosure c).2 (h'.addClosure c').2 ∧
      HeapAlike ρ (h.addClosure c).2 (h'.addClosure c').2 := by
  have hext : Extends ρ h h' ρ (h.addClosure c).2 (h'.addClosure c').2 :=
    ⟨Grows.addClosure .., Grows.addClosure .., id⟩
  have hholds := (hh.holds hext).addClosure c
  refine ⟨hext, ?_⟩
  exact {
    frames := hh.frames
    root := hh.root
    globals := hh.globals
    closures := by simp [Heap.addClosure, hh.closures, hc]
    classes := hh.classes
    instances := hh.instances
    ticks := hh.ticks
    values := hholds.values
    methods := hholds.methods
    fields := hholds.fields }

theorem addClass (hh : HeapAlike ρ h h')
    (hc : ∀ x k, c.methods.get? x = some k → ClosuresAlike ρ h h' 1 k) :
    Extends ρ h h' ρ (h.addClass c).2 (h'.addClass c).2 ∧
      HeapAlike ρ (h.addClass c).2 (h'.addClass c).2 := by
  have hext : Extends ρ h h' ρ (h.addClass c).2 (h'.addClass c).2 :=
    ⟨Grows.addClass .., Grows.addClass .., id⟩
  have hholds := (hh.holds hext).addClass fun x k hk => (hc x k hk).extends hext
  refine ⟨hext, ?_⟩
  exact {
    frames := hh.frames
    root := hh.root
    globals := hh.globals
    closures := hh.closures
    classes := by simp [Heap.addClass, hh.classes]
    instances := hh.instances
    ticks := hh.ticks
    values := hholds.values
    methods := hholds.methods
    fields := hholds.fields }

theorem addInstance (hh : HeapAlike ρ h h') (cls : Nat) :
    Extends ρ h h' ρ (h.addInstance cls).2 (h'.addInstance cls).2 ∧
      HeapAlike ρ (h.addInstance cls).2 (h'.addInstance cls).2 := by
  have hext : Extends ρ h h' ρ (h.addInstance cls).2 (h'.addInstance cls).2 :=
    ⟨Grows.addInstance .., Grows.addInstance .., id⟩
  have hholds := (hh.holds hext).addInstance cls
  refine ⟨hext, ?_⟩
  exact {
    frames := hh.frames
    root := hh.root
    globals := hh.globals
    closures := hh.closures
    classes := hh.classes
    instances := by simp [Heap.addInstance, hh.instances]
    ticks := hh.ticks
    values := hholds.values
    methods := hholds.methods
    fields := hholds.fields }

theorem setField (hh : HeapAlike ρ h h') (hv : Shared ρ h h' v) (object : Nat) (name : String) :
    Extends ρ h h' ρ (h.setField object name v) (h'.setField object name v) ∧
      HeapAlike ρ (h.setField object name v) (h'.setField object name v) := by
  have hext : Extends ρ h h' ρ (h.setField object name v) (h'.setField object name v) :=
    ⟨Grows.setField .., Grows.setField .., id⟩
  have hholds := (hh.holds hext).setField (hv.extends hext) object name
  refine ⟨hext, ?_⟩
  exact {
    frames := hh.frames
    root := hh.root
    globals := hh.globals
    closures := hh.closures
    classes := hh.classes
    instances := by simp [Heap.setField, hh.instances]
    ticks := hh.ticks
    values := hholds.values
    methods := hholds.methods
    fields := hholds.fields }

theorem tick (hh : HeapAlike ρ h h') :
    Extends ρ h h' ρ h.tick h'.tick ∧ HeapAlike ρ h.tick h'.tick := by
  have hext : Extends ρ h h' ρ h.tick h'.tick := ⟨Grows.tick .., Grows.tick .., id⟩
  have hholds := hh.holds hext
  refine ⟨hext, ?_⟩
  exact {
    frames := hh.frames
    root := hh.root
    globals := hh.globals
    closures := hh.closures
    classes := hh.classes
    instances := hh.instances
    ticks := congrArg (· + 1) hh.ticks
    values := hholds.values
    methods := hholds.methods
    fields := hholds.fields }

end HeapAlike

end LoxLang.Braces
