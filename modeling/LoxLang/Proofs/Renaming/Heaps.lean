import LoxLang.Proofs.HeldValues
import LoxLang.Proofs.Renaming.Alike

/-!
# Heaps beside a renaming

Heaps stay alike when the same is made in both (`make`, `addClosure`, `addInstance`), and when the
same is stored in frames and fields (`define`, `setField`).
-/

namespace LoxLang

variable {φ : Renaming} {S : List Nat} {h h' : Heap}

namespace HeapAlike

/-- Nobody can tell the two heaps apart without calling their functions. -/
theorem looks (hh : HeapAlike φ S h h') : h.LooksAlike h' :=
  ⟨hh.closures, hh.classes, hh.instances⟩

/-- What the first heap holds, seen from heaps the two grow into. -/
theorem holds (hh : HeapAlike φ S h h') (e : Extends S h h' S₁ h₁ h₁') :
    h.HoldsOnly (Shared φ S₁ h₁ h₁') fun k => ∃ m m', h₁.closures[k]? = some m ∧
      h₁'.closures[k]? = some m' ∧ ClosureAlike φ S₁ h₁ 1 m m' where
  values hv := (hh.values hv).extends e
  methods hc hk := by
    obtain ⟨m, m', hm, hm', halike⟩ := hh.methods hc hk
    exact ⟨m, m', e.left.closures hm, e.right.closures hm', halike.extends e⟩
  fields ho hv := (hh.fields ho hv).extends e

/-- The methods that instances have. -/
theorem method? (hh : HeapAlike φ S h h') (hm : h.method? cls x = some k) :
    ∃ m m', h.closures[k]? = some m ∧ h'.closures[k]? = some m' ∧ ClosureAlike φ S h 1 m m' :=
  (hh.holds (.refl S h h')).method? hm

/-! ## Variables -/

theorem holder?_globals (hh : HeapAlike φ S h h') (x : String) :
    h'.frames.holder? Heap.globals x = h.frames.holder? Heap.globals x := by
  obtain ⟨bs, hbs⟩ := hh.globals
  have hbs' := hh.frames.frame Heap.globals
  simp only [hbs, hh.unmarked, Option.map_some, decide_false, Bindings.rename_false] at hbs'
  simp only [Frames.holder?, Frames.holderWithin, hbs, hbs']

theorem get?_globals (hh : HeapAlike φ S h h') (x : String) :
    h'.frames.get? Heap.globals x = h.frames.get? Heap.globals x := by
  obtain ⟨bs, hbs⟩ := hh.globals
  have hbs' := hh.frames.frame Heap.globals
  simp only [hbs, hh.unmarked, Option.map_some, decide_false, Bindings.rename_false] at hbs'
  simp only [Frames.get?, Frames.holder?, Frames.holderWithin, hbs, hbs', Frames.lookup?]
  split
  · simp [hbs, hbs']
  · rfl

end HeapAlike

theorem HeapAlike.holder?_eq_globals (hh : HeapAlike φ S h h')
    (hj : h.frames.holder? Heap.globals x = some j) : j = Heap.globals := by
  obtain ⟨bs, hbs⟩ := hh.globals
  simp only [Frames.holder?, Frames.holderWithin, hbs] at hj
  split at hj <;> cases hj
  rfl

/-- A frame that lacks a name lacks what the name becomes. -/
def FrameFault.rename (φ : Renaming) (bound : Bool) : FrameFault → FrameFault
  | unbound x => unbound (φ.name bound x)
  | outside => outside

theorem Frames.walk_error {fs : Frames Value} (h : fs.walk d position = .error f) :
    f = .outside := by
  induction d generalizing position with
  | zero => cases h
  | succ d ih =>
    cases position with
    | none => cases h; rfl
    | some i =>
      simp only [walk] at h
      split at h
      · cases h; rfl
      · exact ih h

theorem Frames.frameAt_error {fs : Frames Value} (h : fs.frameAt i d = .error f) :
    f = .outside := by
  simp only [frameAt] at h
  split at h
  · next hw => cases h; exact walk_error hw
  · cases h; rfl
  · split at h <;> cases h
    rfl

/-- A read by hops has the same outcome. -/
theorem HeapAlike.getAt (hh : HeapAlike φ S h h') (hd : Depth S h.frames i o)
    (hx : φ.Avoids o x) (d : Nat) :
    h'.frames.getAt i d (φ.name (o = some d) x) =
      (h.frames.getAt i d x).mapError (FrameFault.rename φ (o = some d)) := by
  simp only [Frames.getAt, hh.frames.frameAt]
  cases hj : h.frames.frameAt i d with
  | error f =>
    rw [Frames.frameAt_error hj]
    rfl
  | ok j =>
    have hS := hd.frameAt hj
    have hlookup := hh.frames.lookup? (i := j) (x := x) fun hjS => hx (by simp [hS.1 hjS])
    simp only [hS] at hlookup
    simp only [hlookup]
    cases h.frames.lookup? j x <;> rfl

/-! ## Making and storing -/

namespace FramesAlike

variable {fs fs' : Frames Value}

theorem make (hfs : FramesAlike φ S fs fs') (outer : Option Nat) (bs : Bindings Value)
    {marked : Bool} (hfresh : marked → ¬bs.contains φ.new)
    (hS : ∀ i, i ∈ S₁ ↔ (i = fs.all.size ∧ marked) ∨ i ∈ S) :
    FramesAlike φ S₁ (fs.make outer bs).2 (fs'.make outer (bs.rename φ marked)).2 := by
  have hnew : fs.all.size ∉ S := fun hm => Nat.lt_irrefl _ (hfs.bounded _ hm)
  have hmake (fs : Frames Value) (bs : Bindings Value) (i : Nat) :
      (fs.make outer bs).2.frame? i =
        if i = fs.all.size then some ⟨outer, bs⟩ else fs.frame? i := by
    simp [Frames.make, Frames.frame?, Array.getElem?_push]
  exact {
    size := by simp [Frames.make, hfs.size]
    frame := by
      intro i
      rw [hmake, hmake, hfs.size, hfs.frame]
      by_cases hi : i = fs.all.size
      · subst hi
        simp [hS, hnew]
      · simp [hS, hi]
    fresh := by
      intro i f hi hf
      rw [hmake] at hf
      split at hf
      · next he =>
        cases hf
        subst he
        exact hfresh (by simpa [hS, hnew] using hi)
      · next he => exact hfs.fresh (by simpa [hS, he] using hi) hf
    bounded := by
      intro i hi
      have hsize : (fs.make outer bs).2.all.size = fs.all.size + 1 := Array.size_push _
      rw [hsize]
      rcases (hS i).1 hi with ⟨rfl, -⟩ | hi
      · exact Nat.lt_succ_self _
      · exact Nat.lt_succ_of_lt (hfs.bounded i hi) }

theorem define (hfs : FramesAlike φ S fs fs') (hx : i ∈ S → x ≠ φ.new) (v : Value) :
    FramesAlike φ S (fs.define i x v) (fs'.define i (φ.name (i ∈ S) x) v) := by
  exact {
    size := by simpa [Frames.define] using hfs.size
    frame := by
      intro j
      rw [Frames.frame?_define, Frames.frame?_define, hfs.frame]
      split
      · next hij =>
        subst hij
        cases hf : fs.frame? i with
        | none => rfl
        | some f =>
          by_cases hi : i ∈ S
          · simp [hi, Bindings.insert_rename (hfs.fresh hi hf) (hx hi)]
          · simp [hi]
      · rfl
    fresh := by
      intro j f hj hf
      rw [Frames.frame?_define] at hf
      split at hf
      · next hij =>
        subst hij
        obtain ⟨g, hg, rfl⟩ := Option.map_eq_some_iff.1 hf
        simpa [Bindings.contains_insert, (hx hj).symm] using hfs.fresh hj hg
      · exact hfs.fresh hj hf
    bounded := by
      intro j hj
      simpa [Frames.define] using hfs.bounded j hj }

end FramesAlike

namespace HeapAlike

theorem enclose (hh : HeapAlike φ S h h') (hd : Depth S h.frames outer o) (ho : Enters o o')
    (bs : Bindings Value) (hbs : ∀ x v, bs.get? x = some v → Shared φ S h h' v)
    (hfresh : o' = some 0 → ¬bs.contains φ.new) :
    ∃ S₁, Extends S h h' S₁ (h.enclose outer bs).2
        (h'.enclose outer (bs.rename φ (o' = some 0))).2 ∧
      HeapAlike φ S₁ (h.enclose outer bs).2 (h'.enclose outer (bs.rename φ (o' = some 0))).2 ∧
      Depth S₁ (h.enclose outer bs).2.frames h.frames.all.size o' := by
  let S₁ := if o' = some 0 then h.frames.all.size :: S else S
  let bs' := bs.rename φ (o' = some 0)
  have hS₁ (i : Nat) : i ∈ S₁ ↔ (i = h.frames.all.size ∧ o' = some 0) ∨ i ∈ S := by
    by_cases h0 : o' = some 0 <;> simp [S₁, h0]
  have hnew : h.frames.all.size ∉ S := fun hm => Nat.lt_irrefl _ (hh.frames.bounded _ hm)
  have hold {i : Nat} (hi : i < h.frames.all.size) : i ∈ S₁ ↔ i ∈ S := by
    simp [hS₁, Nat.ne_of_lt hi]
  have hleft := Grows.enclose [] h .globals outer bs
  have hright := Grows.enclose [] h' .globals outer bs'
  have hext : Extends S h h' S₁ (h.enclose outer bs).2 (h'.enclose outer bs').2 :=
    ⟨hleft.regionless, hright.regionless, hold⟩
  have hframe : (h.enclose outer bs).2.frames.frame? h.frames.all.size = some ⟨some outer, bs⟩ :=
    Frames.frame?_make_self ..
  have hholds := (hh.holds hext).enclose outer fun x v hx => (hbs x v hx).extends hext
  have hkept {i : Nat} (hi : i < h.frames.all.size) :
      (h.enclose outer bs).2.frames.frame? i = h.frames.frame? i := Frames.frame?_make_of_lt hi ..
  refine ⟨S₁, hext, ?_, .inner hframe (hd.extends hext) ho (by simp [hS₁, hnew])⟩
  exact {
    frames := hh.frames.make (some outer) bs (by simpa using hfresh) (by simpa using hS₁)
    globals := by
      obtain ⟨gs, hgs⟩ := hh.globals
      exact ⟨gs, (hkept (Frames.lt_of_frame? hgs)).trans hgs⟩
    unmarked := by
      obtain ⟨gs, hgs⟩ := hh.globals
      exact fun hm => hh.unmarked ((hold (Frames.lt_of_frame? hgs)).1 hm)
    closures := hh.closures
    classes := hh.classes
    instances := hh.instances
    ticks := hh.ticks
    values := hholds.values
    methods := hholds.methods
    fields := hholds.fields }

theorem define (hh : HeapAlike φ S h h') (hx : i ∈ S → x ≠ φ.new) (hv : Shared φ S h h' v) :
    Extends S h h' S (h.define i x v) (h'.define i (φ.name (i ∈ S) x) v) ∧
      HeapAlike φ S (h.define i x v) (h'.define i (φ.name (i ∈ S) x) v) := by
  have hext : Extends S h h' S (h.define i x v) (h'.define i (φ.name (i ∈ S) x) v) :=
    ⟨Grows.define .., Grows.define .., fun _ => .rfl⟩
  have hholds := (hh.holds hext).define (hv.extends hext) i x
  refine ⟨hext, ?_⟩
  exact {
    frames := hh.frames.define hx v
    globals := by
      obtain ⟨gs, hgs⟩ := hh.globals
      obtain ⟨gs', hgs', -⟩ := hext.left.frames hgs
      exact ⟨gs', hgs'⟩
    unmarked := hh.unmarked
    closures := hh.closures
    classes := hh.classes
    instances := hh.instances
    ticks := hh.ticks
    values := hholds.values
    methods := hholds.methods
    fields := hholds.fields }

theorem addClosure (hh : HeapAlike φ S h h') (hc : c'.signature = c.signature) :
    Extends S h h' S (h.addClosure c).2 (h'.addClosure c').2 ∧
      HeapAlike φ S (h.addClosure c).2 (h'.addClosure c').2 := by
  have hext : Extends S h h' S (h.addClosure c).2 (h'.addClosure c').2 :=
    ⟨Grows.addClosure .., Grows.addClosure .., fun _ => .rfl⟩
  have hholds := (hh.holds hext).addClosure c
  refine ⟨hext, ?_⟩
  exact {
    frames := hh.frames
    globals := hh.globals
    unmarked := hh.unmarked
    closures := by simp [Heap.addClosure, hh.closures, hc]
    classes := hh.classes
    instances := hh.instances
    ticks := hh.ticks
    values := hholds.values
    methods := hholds.methods
    fields := hholds.fields }

theorem addClass (hh : HeapAlike φ S h h') (hc : ∀ x k, c.methods.get? x = some k →
      ∃ m m', h.closures[k]? = some m ∧ h'.closures[k]? = some m' ∧ ClosureAlike φ S h 1 m m') :
    Extends S h h' S (h.addClass c).2 (h'.addClass c).2 ∧
      HeapAlike φ S (h.addClass c).2 (h'.addClass c).2 := by
  have hext : Extends S h h' S (h.addClass c).2 (h'.addClass c).2 :=
    ⟨Grows.addClass .., Grows.addClass .., fun _ => .rfl⟩
  have hholds := (hh.holds hext).addClass fun x k hk => by
    obtain ⟨m, m', hm, hm', halike⟩ := hc x k hk
    exact ⟨m, m', hm, hm', halike.extends hext⟩
  refine ⟨hext, ?_⟩
  exact {
    frames := hh.frames
    globals := hh.globals
    unmarked := hh.unmarked
    closures := hh.closures
    classes := by simp [Heap.addClass, hh.classes]
    instances := hh.instances
    ticks := hh.ticks
    values := hholds.values
    methods := hholds.methods
    fields := hholds.fields }

theorem addInstance (hh : HeapAlike φ S h h') (cls : Nat) :
    Extends S h h' S (h.addInstance cls).2 (h'.addInstance cls).2 ∧
      HeapAlike φ S (h.addInstance cls).2 (h'.addInstance cls).2 := by
  have hext : Extends S h h' S (h.addInstance cls).2 (h'.addInstance cls).2 :=
    ⟨Grows.addInstance .., Grows.addInstance .., fun _ => .rfl⟩
  have hholds := (hh.holds hext).addInstance cls
  refine ⟨hext, ?_⟩
  exact {
    frames := hh.frames
    globals := hh.globals
    unmarked := hh.unmarked
    closures := hh.closures
    classes := hh.classes
    instances := by simp [Heap.addInstance, hh.instances]
    ticks := hh.ticks
    values := hholds.values
    methods := hholds.methods
    fields := hholds.fields }

theorem setField (hh : HeapAlike φ S h h') (hv : Shared φ S h h' v) (object : Nat) (name : String) :
    Extends S h h' S (h.setField object name v) (h'.setField object name v) ∧
      HeapAlike φ S (h.setField object name v) (h'.setField object name v) := by
  have hext : Extends S h h' S (h.setField object name v) (h'.setField object name v) :=
    ⟨Grows.setField .., Grows.setField .., fun _ => .rfl⟩
  have hholds := (hh.holds hext).setField (hv.extends hext) object name
  refine ⟨hext, ?_⟩
  exact {
    frames := hh.frames
    globals := hh.globals
    unmarked := hh.unmarked
    closures := hh.closures
    classes := hh.classes
    instances := by simp [Heap.setField, hh.instances]
    ticks := hh.ticks
    values := hholds.values
    methods := hholds.methods
    fields := hholds.fields }

theorem tick (hh : HeapAlike φ S h h') :
    Extends S h h' S h.tick h'.tick ∧ HeapAlike φ S h.tick h'.tick := by
  have hext : Extends S h h' S h.tick h'.tick := ⟨Grows.tick .., Grows.tick .., fun _ => .rfl⟩
  have hholds := hh.holds hext
  refine ⟨hext, ?_⟩
  exact {
    frames := hh.frames
    globals := hh.globals
    unmarked := hh.unmarked
    closures := hh.closures
    classes := hh.classes
    instances := hh.instances
    ticks := congrArg (· + 1) hh.ticks
    values := hholds.values
    methods := hholds.methods
    fields := hholds.fields }

end HeapAlike

end LoxLang
