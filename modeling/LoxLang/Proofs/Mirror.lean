import LoxLang.Heap
import LoxLang.Proofs.Sites

/-!
# Frames and scopes

From the current frame to the globals there is one frame for every scope around, made for the region
of the scope, and it binds every name of the scope that may be read (`Mirrors`). Frames only gain
names and a heap only grows (`Grows`), so what mirrors scopes once does so for good
(`Mirrors.grows`).
-/

namespace LoxLang

/-- The frames from one to the globals, one for each scope. The innermost may lack one name. -/
inductive Mirrors (R : List Region) (fs : Frames Value) :
    Option String → Nat → List Scope → List Region → Prop where
  | globals : fs.frame? Heap.globals = some ⟨none, bs⟩ →
      Mirrors R fs lacking Heap.globals [] []
  | inner : fs.frame? i = some ⟨some j, bs⟩ → R[i]? = some ρ →
      (∀ x, scope.get? x = some true → lacking ≠ some x → bs.contains x) →
      Mirrors R fs none j Γ ρs → Mirrors R fs lacking i (scope :: Γ) (ρ :: ρs)

/-- One heap grows into another: frames stay where they are and gain names, and what is made stays
as it is. -/
structure Grows (R : List Region) (h : Heap) (R' : List Region) (h' : Heap) : Prop where
  frames {i : Nat} {outer : Option Nat} {bs : Bindings Value} :
    h.frames.frame? i = some ⟨outer, bs⟩ →
      ∃ bs', h'.frames.frame? i = some ⟨outer, bs'⟩ ∧ ∀ x, bs.contains x → bs'.contains x
  regions {i : Nat} {ρ : Region} : R[i]? = some ρ → R'[i]? = some ρ
  closures {i : Nat} {c : Closure} : h.closures[i]? = some c → h'.closures[i]? = some c
  instances : h.instances.size ≤ h'.instances.size

namespace Frames

variable {α : Type} {fs : Frames α}

theorem lt_of_frame? (h : fs.frame? i = some f) : i < fs.all.size :=
  (Array.getElem?_eq_some_iff.1 h).1

theorem frameAt_zero (h : fs.frame? i = some f) : fs.frameAt i 0 = .ok i := by
  simp [frameAt, walk, lt_of_frame? h]

theorem frameAt_succ (h : fs.frame? i = some ⟨some j, bs⟩) (d : Nat) :
    fs.frameAt i (d + 1) = fs.frameAt j d := by
  simp [frameAt, walk, h]

/-- Walking from one frame to another and one link further. -/
theorem frameAt_outer (h : fs.frameAt i d = .ok j) :
    fs.frameAt i (d + 1) = fs.frameAt j 1 := by
  induction d generalizing i with
  | zero =>
    simp only [frameAt, walk] at h
    split at h
    · cases h; rfl
    · cases h
  | succ d ih =>
    cases hf : fs.frame? i with
    | none => simp [frameAt, walk, hf] at h
    | some f =>
      obtain ⟨outer, bs⟩ := f
      cases outer with
      | none => cases d <;> simp [frameAt, walk, hf] at h
      | some k =>
        rw [frameAt_succ hf] at h ⊢
        exact ih h

theorem frameAt_zero_eq (h : fs.frameAt i 0 = .ok j) : i = j := by
  simp only [frameAt, walk] at h
  split at h
  · cases h; rfl
  · cases h

/-- One link further than a frame is the frame that it is inside. -/
theorem frameAt_enclosing (h : fs.frameAt i d = .ok j)
    (hj : (fs.frame? j).map Frame.enclosing = some (some k))
    (hk : fs.frameAt i (d + 1) = .ok k') : k = k' := by
  obtain ⟨⟨_, bs⟩, hf, rfl⟩ := Option.map_eq_some_iff.1 hj
  rw [frameAt_outer h, frameAt_succ hf] at hk
  exact frameAt_zero_eq hk

theorem frameAt_link (h : fs.frameAt i d = .ok j)
    (hj : (fs.frame? j).map Frame.enclosing = some (some k)) (hk : fs.frame? k = some f) :
    fs.frameAt i (d + 1) = .ok k := by
  obtain ⟨⟨_, bs⟩, hf, rfl⟩ := Option.map_eq_some_iff.1 hj
  rw [frameAt_outer h, frameAt_succ hf]
  exact frameAt_zero hk

/-- What is read so many links out is bound by the frame there. -/
theorem lookup?_of_getAt (h : fs.getAt i d x = .ok v) :
    ∃ j, fs.frameAt i d = .ok j ∧ fs.lookup? j x = some v := by
  simp only [getAt] at h
  split at h
  · cases h
  · next j hj =>
    split at h
    · cases h
    · next hv => cases h; exact ⟨j, hj, hv⟩

theorem getAt_of_frameAt (h : fs.frameAt i d = .ok j) (hv : fs.lookup? j x = some v) :
    fs.getAt i d x = .ok v := by
  simp [getAt, h, hv]

theorem lookup?_of_contains (h : fs.frame? i = some ⟨outer, bs⟩) (hx : bs.contains x) :
    ∃ v, fs.lookup? i x = some v := by
  obtain ⟨v, hv⟩ := Option.isSome_iff_exists.1 hx
  exact ⟨v, by simp [lookup?, h, hv]⟩

end Frames

namespace Grows

theorem refl (R : List Region) (h : Heap) : Grows R h R h :=
  ⟨fun hf => ⟨_, hf, fun _ hx => hx⟩, id, id, Nat.le_refl _⟩

theorem trans (h₁ : Grows R h R' h') (h₂ : Grows R' h' R'' h'') : Grows R h R'' h'' where
  frames hf := by
    obtain ⟨bs', hf', hbs⟩ := h₁.frames hf
    obtain ⟨bs'', hf'', hbs'⟩ := h₂.frames hf'
    exact ⟨bs'', hf'', fun x hx => hbs' x (hbs x hx)⟩
  regions hρ := h₂.regions (h₁.regions hρ)
  closures hc := h₂.closures (h₁.closures hc)
  instances := Nat.le_trans h₁.instances h₂.instances

theorem enclose (R : List Region) (h : Heap) (ρ : Region) (outer : Nat) (bs : Bindings Value) :
    Grows R h (R ++ [ρ]) (h.enclose outer bs).2 where
  frames {i _ _} hf :=
    ⟨_, (Frames.frame?_make_of_lt (Frames.lt_of_frame? hf) ..).trans hf, fun _ hx => hx⟩
  regions hρ := by rw [List.getElem?_append_left (List.getElem?_eq_some_iff.1 hρ).1, hρ]
  closures hc := hc
  instances := Nat.le_refl _

theorem define (R : List Region) (h : Heap) (i : Nat) (x : String) (v : Value) :
    Grows R h R (h.define i x v) where
  frames {j _ bs} hf := by
    simp only [Heap.define, Frames.frame?_define, hf, Option.map_some]
    split
    · exact ⟨_, rfl, fun y hy => by simp [Bindings.contains_insert, hy]⟩
    · exact ⟨bs, rfl, fun _ hy => hy⟩
  regions := id
  closures := id
  instances := Nat.le_refl _

theorem addClosure (R : List Region) (h : Heap) (c : Closure) : Grows R h R (h.addClosure c).2 where
  frames hf := ⟨_, hf, fun _ hx => hx⟩
  regions := id
  closures hc := by
    have hi := (Array.getElem?_eq_some_iff.1 hc).1
    simpa [Heap.addClosure, Array.getElem?_push, Nat.ne_of_lt hi] using hc
  instances := Nat.le_refl _

theorem addClass (R : List Region) (h : Heap) (c : Class) : Grows R h R (h.addClass c).2 :=
  ⟨fun hf => ⟨_, hf, fun _ hx => hx⟩, id, id, Nat.le_refl _⟩

theorem addInstance (R : List Region) (h : Heap) (c : Nat) : Grows R h R (h.addInstance c).2 :=
  ⟨fun hf => ⟨_, hf, fun _ hx => hx⟩, id, id, by simp [Heap.addInstance]⟩

theorem setField (R : List Region) (h : Heap) (o : Nat) (x : String) (v : Value) :
    Grows R h R (h.setField o x v) :=
  ⟨fun hf => ⟨_, hf, fun _ hx => hx⟩, id, id, by simp [Heap.setField]⟩

theorem tick (R : List Region) (h : Heap) : Grows R h R h.tick :=
  ⟨fun hf => ⟨_, hf, fun _ hx => hx⟩, id, id, Nat.le_refl _⟩

end Grows

namespace Mirrors

theorem grows (hg : Grows R h R' h') (hm : Mirrors R h.frames lacking i Γ ρs) :
    Mirrors R' h'.frames lacking i Γ ρs := by
  induction hm with
  | globals hf =>
    obtain ⟨bs', hf', -⟩ := hg.frames hf
    exact .globals hf'
  | inner hf hρ hbs _ ih =>
    obtain ⟨bs', hf', hgain⟩ := hg.frames hf
    exact .inner hf' (hg.regions hρ) (fun x hx hl => hgain x (hbs x hx hl)) ih

theorem frame? (hm : Mirrors R fs lacking i Γ ρs) : ∃ f, fs.frame? i = some f := by
  cases hm with
  | globals hf => exact ⟨_, hf⟩
  | inner hf => exact ⟨_, hf⟩

theorem lt_size (hm : Mirrors R fs lacking i Γ ρs) : i < fs.all.size :=
  Frames.lt_of_frame? hm.frame?.choose_spec

/-- Leaving so many scopes leads to the frame of the scope that is innermost then. -/
theorem frameAt (hm : Mirrors R fs lacking i Γ ρs) (hd : Γ[d]? = some scope) :
    ∃ j, fs.frameAt i d = .ok j ∧
      Mirrors R fs (if d = 0 then lacking else none) j (scope :: Γ.drop (d + 1)) (ρs.drop d) := by
  induction hm generalizing d with
  | globals => cases hd
  | inner hf hρ hbs hm ih =>
    cases d with
    | zero =>
      cases hd
      exact ⟨_, Frames.frameAt_zero hf, .inner hf hρ hbs hm⟩
    | succ d =>
      obtain ⟨j, hj, hm'⟩ := ih hd
      refine ⟨j, (Frames.frameAt_succ hf d).trans hj, ?_⟩
      rw [ite_self] at hm'
      exact hm'

/-- The frame that was made for a region around. -/
theorem region (hm : Mirrors R fs lacking i Γ ρs) (hd : ρs[d]? = some ρ) :
    ∃ j, fs.frameAt i d = .ok j ∧ R[j]? = some ρ := by
  induction hm generalizing d with
  | globals => cases hd
  | inner hf hρ _ _ ih =>
    cases d with
    | zero =>
      cases hd
      exact ⟨_, Frames.frameAt_zero hf, hρ⟩
    | succ d =>
      obtain ⟨j, hj, hρ'⟩ := ih hd
      exact ⟨j, (Frames.frameAt_succ hf d).trans hj, hρ'⟩

/-- A frame with regions around it was made for the innermost of them. -/
theorem head_region (hm : Mirrors R fs lacking i Γ ρs) :
    (i = Heap.globals ∧ ρs = []) ∨ ∃ ρ, R[i]? = some ρ ∧ ρs.head? = some ρ := by
  cases hm with
  | globals => exact .inl ⟨rfl, rfl⟩
  | inner _ hρ => exact .inr ⟨_, hρ, rfl⟩

/-- The frame of a region was made in the frame of the region around it. -/
theorem enclosing (hm : Mirrors R fs lacking i Γ ρs) (hd : ρs[d + 1]? = some ρ)
    (hj : fs.frameAt i d = .ok j) (hj' : fs.frameAt i (d + 1) = .ok j') :
    (fs.frame? j).map Frame.enclosing = some (some j') := by
  induction hm generalizing d with
  | globals => cases hd
  | inner hf _ _ hm ih =>
    cases d with
    | zero =>
      cases hm with
      | globals => cases hd
      | inner hf' =>
        rw [Frames.frameAt_zero hf] at hj
        rw [Frames.frameAt_succ hf, Frames.frameAt_zero hf'] at hj'
        cases hj
        cases hj'
        rw [hf]
        rfl
    | succ d =>
      rw [Frames.frameAt_succ hf] at hj hj'
      exact ih hd hj hj'

/-- The frame of a scope binds what may be read in the scope. -/
theorem lookup? (hm : Mirrors R fs lacking i (scope :: Γ) ρs) (hx : scope.get? x = some true)
    (hl : lacking ≠ some x) : ∃ v, fs.lookup? i x = some v := by
  cases hm with
  | inner hf _ hbs => exact Frames.lookup?_of_contains hf (hbs x hx hl)

/-! A name is introduced in two steps: a frame that lacks the name mirrors the new scope already,
and once the frame binds the name, it lacks nothing. -/

theorem introduce (hm : Mirrors R fs none i Γ ρs) (t : Token) :
    Mirrors R fs (some t.lexeme) i (Scope.introduce t Γ) ρs := by
  cases hm with
  | globals hf => exact .globals hf
  | inner hf hρ hbs hm =>
    refine .inner hf hρ (fun x hx hl => hbs x ?_ nofun) hm
    have hne : x ≠ t.lexeme := fun e => hl (congrArg some e.symm)
    rwa [Bindings.get?_insert_of_ne hne, Bindings.get?_insert_of_ne hne] at hx

theorem declare (hm : Mirrors R fs none i Γ ρs) (x : String) :
    Mirrors R fs none i (Scope.declare x Γ) ρs := by
  cases hm with
  | globals hf => exact .globals hf
  | inner hf hρ hbs hm =>
    refine .inner hf hρ (fun y hy _ => hbs y ?_ nofun) hm
    by_cases hyx : y = x
    · rw [hyx, Bindings.get?_insert_self] at hy
      cases hy
    · rwa [Bindings.get?_insert_of_ne hyx] at hy

theorem introduce_of_declare {t : Token}
    (hm : Mirrors R fs none i (Scope.declare t.lexeme Γ) ρs) :
    Mirrors R fs (some t.lexeme) i (Scope.introduce t Γ) ρs := by
  cases Γ with
  | nil =>
    cases hm with
    | globals hf => exact .globals hf
  | cons scope Γ =>
    cases hm with
    | inner hf hρ hbs hm =>
      refine .inner hf hρ (fun x hx hl => hbs x ?_ nofun) hm
      have hne : x ≠ t.lexeme := fun e => hl (congrArg some e.symm)
      rwa [Bindings.get?_insert_of_ne hne] at hx

theorem define {h : Heap} (hm : Mirrors R h.frames (some x) i Γ ρs) (v : Value) :
    Mirrors R (h.define i x v).frames none i Γ ρs := by
  have hg := Grows.define R h i x v
  cases hm with
  | globals hf =>
    obtain ⟨bs', hf', -⟩ := hg.frames hf
    exact .globals hf'
  | inner hf hρ hbs hm =>
    refine .inner (by rw [Heap.define, Frames.frame?_define, if_pos rfl, hf]; rfl) hρ
      (fun y hy _ => ?_) (hm.grows hg)
    rw [Bindings.contains_insert]
    by_cases hyx : y = x
    · simp [hyx]
    · simp [hbs y hy fun e => hyx (Option.some.inj e).symm]

end Mirrors

end LoxLang
