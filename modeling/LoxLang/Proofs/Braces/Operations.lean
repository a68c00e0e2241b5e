import LoxLang.Proofs.History
import LoxLang.Proofs.Renaming.Operations
import LoxLang.Proofs.Braces.Heaps

/-!
# Operations beside added braces

The operations that steps are made of, done by two machines that are alike: a read or a store of a
variable (`read`, `store`), a property, a class (`declareClass`), a call (`call`). Each leaves them
alike, unless a stack overflows.
-/

namespace LoxLang.Braces

variable {ρ : List Nat} {m m' : Machine} {s s' : Setting}

@[simp] theorem name_lift (o : Option Nat) (r : Reference) : (r.lift o).name = r.name := rfl

@[simp] theorem hops_lift (o : Option Nat) (r : Reference) :
    (r.lift o).hops = r.hops.map (liftHops o) := rfl

theorem Shared.of_ne_closure (hv : ∀ k, v ≠ .closure k) : Shared ρ h h' v := by
  cases v with
  | closure k => exact absurd rfl (hv k)
  | _ => trivial

namespace Beside

variable {i i' : Nat} {task task' : Control}

theorem grow (hs : Beside ρ m m') (e : Extends ρ m.heap m'.heap ρ₁ h₁ h₁')
    (hh : HeapAlike ρ₁ h₁ h₁') : Beside ρ₁ { m with heap := h₁ } { m' with heap := h₁' } :=
  ⟨hh, hs.stack.extends e, hs.printed⟩

theorem proceed (hs : Beside ρ m m')
    (hc : ControlAlike ρ m.heap m'.heap m.stack.items task task' m.frame m'.frame) :
    Follows (m.proceed task) (m'.proceed task') :=
  .inl ⟨ρ, ⟨hs.heap, hs.stack, hs.printed⟩, hc⟩

theorem fail (hs : Beside ρ m m') (f : Failure) : Follows (m.fail f) (m'.fail f) :=
  hs.proceed .failing

theorem error (hs : Beside ρ m m') (t : Token) (e : RuntimeError) :
    Follows (m.error t e) (m'.error t e) :=
  hs.fail _

theorem fault (hs : Beside ρ m m') (f : Fault) : Follows (m.fault f) (m'.fault f) := hs.fail _

theorem yield (hs : Beside ρ m m') (hv : Shared ρ m.heap m'.heap v) :
    Follows (m.yield v) (m'.yield v) :=
  hs.proceed (.value (.shared hv))

/-- A part of the task is done in frames of its own, or in the same. -/
theorem enter (hs : Beside ρ m m')
    (hstack : StackAlike ρ m.heap m'.heap (w :: m.stack.items) (w' :: m'.stack.items) i i')
    (hc : ControlAlike ρ m.heap m'.heap (w :: m.stack.items) task task' i i') :
    Follows (m.enter s w i task) (m'.enter s' w' i' task') := by
  unfold Machine.enter
  split
  · exact .inr (.inl ⟨_, rfl⟩)
  · split
    · exact .inr (.inr ⟨_, rfl⟩)
    · exact .inl ⟨ρ, ⟨hs.heap, hstack, hs.printed⟩, hc⟩

theorem await (hs : Beside ρ m m') (hp : InPlace ρ o m m')
    (hw : WaitingAlike ρ m.heap m'.heap o w w')
    (hc : ControlAlike ρ m.heap m'.heap (w :: m.stack.items) task task' m.frame m'.frame) :
    Follows (m.await s w task) (m'.await s' w' task') :=
  hs.enter (.waiting hp hw hs.stack) hc

/-! ## Variables -/

theorem read (hs : Beside ρ m m') (hp : InPlace ρ o m m') (r : Reference) :
    Follows (m.read r) (m'.read (r.lift o)) := by
  unfold Machine.read
  rw [hops_lift, name_lift]
  cases r.hops with
  | none =>
    dsimp only [Option.map_none]
    rw [hs.heap.get?_globals]
    cases hv : m.heap.frames.get? Heap.globals r.name.lexeme with
    | none => exact hs.error ..
    | some v =>
      obtain ⟨j, -, hj⟩ := Option.bind_eq_some_iff.1 hv
      exact hs.yield (hs.heap.values hj)
  | some d =>
    dsimp only [Option.map_some]
    rw [hs.heap.frames.getAt hp]
    cases hget : m.heap.frames.getAt m.frame d r.name.lexeme with
    | error f => exact hs.fault _
    | ok v =>
      obtain ⟨j, -, hj⟩ := Frames.lookup?_of_getAt hget
      exact hs.yield (hs.heap.values hj)

theorem store (hs : Beside ρ m m') (hj : ρ[j]? = some j') (hv : Shared ρ m.heap m'.heap v)
    (name : Token) : Follows (m.store j name v) (m'.store j' name v) := by
  obtain ⟨e, hh⟩ := hs.heap.define hj hv name.lexeme
  exact (hs.grow e hh).yield (hv.extends e)

theorem assign (hs : Beside ρ m m') (hp : InPlace ρ o m m') (hv : Shared ρ m.heap m'.heap v)
    (r : Reference) : Follows (m.assign r v) (m'.assign (r.lift o) v) := by
  unfold Machine.assign
  rw [hops_lift, name_lift]
  cases r.hops with
  | none =>
    dsimp only [Option.map_none]
    rw [hs.heap.holder?_globals]
    cases hj : m.heap.frames.holder? Heap.globals r.name.lexeme with
    | none => exact hs.error ..
    | some j =>
      obtain rfl := hs.heap.holder?_eq_globals hj
      exact hs.store hs.heap.root hv r.name
  | some d =>
    have hfound := hp.frameAt d
    dsimp only [Option.map_some]
    generalize m.heap.frames.frameAt m.frame d = found at hfound ⊢
    generalize m'.heap.frames.frameAt m'.frame (liftHops o d) = found' at hfound ⊢
    cases hfound with
    | ok hj => exact hs.store hj hv r.name
    | outside => exact hs.fault _

theorem define (hs : Beside ρ m m') (hi : ρ[m.frame]? = some m'.frame)
    (hv : Shared ρ m.heap m'.heap v) (name : Token) :
    Follows (m.define name v) (m'.define name v) := by
  obtain ⟨e, hh⟩ := hs.heap.define hi hv name.lexeme
  exact (hs.grow e hh).yield (v := .nil) trivial

/-! ## Operators -/

theorem conclude (hs : Beside ρ m m') (hc : Machine.Concludes m m' t t after after') :
    Follows after after' := by
  cases hc with
  | yield hv => exact hs.yield (.of_ne_closure hv)
  | error => exact hs.error ..
  | fault => exact hs.fault _

end Beside

/-! ## Methods -/

/-- A binding of one name. -/
theorem shared_singleton (hv : Shared ρ h h' v) (name x : String) (u : Value)
    (hx : Bindings.get? x [(name, v)] = some u) : Shared ρ h h' u :=
  (Bindings.of_get?_single hx).2 ▸ hv

/-- A receiver gets a frame around a method, which the method can be called in. -/
theorem HeapAlike.encloseReceiver {h h' : Heap} (hh : HeapAlike ρ h h')
    (hc : ClosureAlike ρ h h' 1 c c') (hv : Shared ρ h h' receiver) :
    ∃ ρ₁, Extends ρ h h' ρ₁ (h.encloseReceiver c receiver).2 (h'.encloseReceiver c' receiver).2 ∧
      HeapAlike ρ₁ (h.encloseReceiver c receiver).2 (h'.encloseReceiver c' receiver).2 ∧
      ClosureAlike ρ₁ (h.encloseReceiver c receiver).2 (h'.encloseReceiver c' receiver).2 0
        { c with frame := (h.encloseReceiver c receiver).1 }
        { c' with frame := (h'.encloseReceiver c' receiver).1 } := by
  cases hc with
  | @intro o f f' frame frame' _ ho hf hp =>
    obtain ⟨ρ₁, e, hh₁, hp₁⟩ := hh.enclose hp [("this", receiver)] (shared_singleton hv _)
    exact ⟨ρ₁, e, hh₁, .intro (deeper_ne_zero 0 o) ((deeper_zero (deeper 1 o)).symm ▸ hf) hp₁⟩

namespace Beside

theorem bindMethod (hs : Beside ρ m m') (hk : ClosuresAlike ρ m.heap m'.heap 1 k)
    (hv : Shared ρ m.heap m'.heap receiver) :
    Follows (m.bindMethod k receiver) (m'.bindMethod k receiver) := by
  obtain ⟨c, c', hc, hc', hm⟩ := hk
  obtain ⟨ρ₁, e, hh, hcall⟩ := hs.heap.encloseReceiver hm hv
  have hi : (m'.heap.encloseReceiver c' receiver).2.closures.size =
      (m.heap.encloseReceiver c receiver).2.closures.size := hh.looks.closures_size
  obtain ⟨e', hh'⟩ := hh.addClosure hcall.signature
  simp only [Machine.bindMethod, hc, hc', Heap.bind, Heap.addClosure, hi]
  exact ((hs.grow e hh).grow e' hh').yield
    ⟨_, _, Array.getElem?_push_size, hi ▸ Array.getElem?_push_size, hcall.extends e'⟩

theorem property (hs : Beside ρ m m') (object : Nat) (name : Token) :
    Follows (m.property object name) (m'.property object name) := by
  simp only [Machine.property, hs.heap.instances]
  cases ho : m.heap.instances[object]? with
  | none => exact hs.fault _
  | some o =>
    dsimp only
    cases hf : o.fields.get? name.lexeme with
    | some v => exact hs.yield (hs.heap.fields ho hf)
    | none =>
      dsimp only
      rw [hs.heap.looks.method?]
      cases hk : m.heap.method? o.cls name.lexeme with
      | none => exact hs.error ..
      | some k => exact hs.bindMethod (hs.heap.method? hk) trivial

/-- The braces never stand between the frame of `this` and the frame of `super` around it. -/
theorem superMethod (hs : Beside ρ m m') (hp : InPlace ρ o m m') {keyword : Reference}
    (hsuper : ∀ k, o = some k → keyword.hops ≠ some k) (method : Token) :
    Follows (m.superMethod keyword method) (m'.superMethod (keyword.lift o) method) := by
  unfold Machine.superMethod
  rw [hops_lift, name_lift]
  cases hk : keyword.hops with
  | none => exact hs.fault _
  | some d =>
    have hthis : liftHops o d - 1 = liftHops o (d - 1) := by
      cases o with
      | none => rfl
      | some k =>
        have hne : d ≠ k := fun he => hsuper k rfl (he ▸ hk)
        simp only [liftHops]
        split <;> split <;> omega
    dsimp only [Option.map_some]
    rw [hthis, hs.heap.frames.getAt hp, hs.heap.frames.getAt hp]
    cases m.heap.frames.getAt m.frame d "super" with
    | error f => exact hs.fault _
    | ok v =>
      cases hget : m.heap.frames.getAt m.frame (d - 1) "this" with
      | error f => exact hs.fault _
      | ok receiver =>
        obtain ⟨j, -, hj⟩ := Frames.lookup?_of_getAt hget
        cases v with
        | cls c =>
          simp only [hs.heap.looks.method?]
          cases hk : m.heap.method? c method.lexeme with
          | none => exact hs.error ..
          | some k => exact hs.bindMethod (hs.heap.method? hk) (hs.heap.values hj)
        | _ => exact hs.fault _

end Beside

/-! ## Classes -/

/-- The methods of a class are added to both heaps under the same numbers. -/
theorem HeapAlike.addMethods {h h' : Heap} {fs fs' : List Function} (methods : Bindings Nat)
    (hh : HeapAlike ρ h h') (ho : o ≠ some 0) (hp : Placed ρ h.frames h'.frames o frame frame')
    (hlen : fs.length = fs'.length)
    (hfs : ∀ f f', (f, f') ∈ fs.zip fs' → Braced (deeper 1 o) (.function f) (.function f'))
    (hprev : ∀ x k, methods.get? x = some k → ClosuresAlike ρ h h' 1 k) :
    (Machine.addMethods frame' fs' methods h').1 = (Machine.addMethods frame fs methods h).1 ∧
      Extends ρ h h' ρ (Machine.addMethods frame fs methods h).2
        (Machine.addMethods frame' fs' methods h').2 ∧
      HeapAlike ρ (Machine.addMethods frame fs methods h).2
        (Machine.addMethods frame' fs' methods h').2 ∧
      ∀ x k, (Machine.addMethods frame fs methods h).1.get? x = some k →
        ClosuresAlike ρ (Machine.addMethods frame fs methods h).2
          (Machine.addMethods frame' fs' methods h').2 1 k := by
  induction fs generalizing fs' methods h h' with
  | nil =>
    obtain rfl := List.length_eq_zero_iff.1 hlen.symm
    exact ⟨rfl, .refl ρ h h', hh, hprev⟩
  | cons f fs ih =>
    obtain ⟨f', fs', rfl⟩ := List.exists_cons_of_length_eq_add_one hlen.symm
    have hf := hfs f f' (by simp)
    have hname : f'.name = f.name := hf.signature.1
    have hc : ClosureAlike ρ h h' 1 ⟨f, frame, f.name.lexeme = Heap.initName⟩
        ⟨f', frame', f.name.lexeme = Heap.initName⟩ := .intro ho hf hp
    obtain ⟨e, hh₁⟩ := hh.addClosure hc.signature
    have hrest := ih (methods.insert f.name.lexeme h.closures.size) hh₁ (hp.extends e)
      (Nat.succ.inj hlen) (fun g g' hg => hfs g g' (by simp [hg])) ?_
    · simp only [Machine.addMethods, Heap.addClosure, hname, hh.looks.closures_size] at hrest ⊢
      exact ⟨hrest.1, e.trans hrest.2.1, hrest.2.2⟩
    · intro x k hk
      by_cases hx : x = f.name.lexeme
      · rw [hx, Bindings.get?_insert_self] at hk
        cases hk
        refine ⟨_, _, Array.getElem?_push_size, ?_, hc.extends e⟩
        rw [← hh.looks.closures_size]
        exact Array.getElem?_push_size
      · rw [Bindings.get?_insert_of_ne hx] at hk
        exact (hprev x k hk).extends e

/-- What is left to do of a class once its methods have their frames. -/
theorem alike_addClass {h h' : Heap} {name : Token} {superclass : Option Nat}
    (hh : HeapAlike ρ h h') (ho : o ≠ some 0) (hp : Placed ρ h.frames h'.frames o frame frame')
    (hlen : fs.length = fs'.length)
    (hfs : ∀ f f', (f, f') ∈ fs.zip fs' → Braced (deeper 1 o) (.function f) (.function f'))
    (hi : ρ[i]? = some i') (hs : StackAlike ρ h h' stack.items stack'.items i i') :
    Alike
      (let (methods, heap) := Machine.addMethods frame fs [] h
      let (c, heap) := heap.addClass ⟨name.lexeme, superclass, methods⟩
      ⟨.value .nil, stack, i, heap.define i name.lexeme (.cls c), printed, callToken⟩)
      (let (methods, heap) := Machine.addMethods frame' fs' [] h'
      let (c, heap) := heap.addClass ⟨name.lexeme, superclass, methods⟩
      ⟨.value .nil, stack', i', heap.define i' name.lexeme (.cls c), printed, callToken'⟩) := by
  obtain ⟨hmethods, e, hh₁, hclosures⟩ := hh.addMethods [] ho hp hlen hfs nofun
  obtain ⟨e', hh₂⟩ := hh₁.addClass (c := ⟨name.lexeme, superclass, _⟩) hclosures
  obtain ⟨e'', hh₃⟩ := hh₂.define hi
    (v := .cls (Machine.addMethods frame fs [] h).2.classes.size) trivial name.lexeme
  have hstack := hs.extends (e.trans (e'.trans e''))
  simp only [hmethods, Heap.addClass, hh₁.classes] at hh₃ hstack ⊢
  exact ⟨ρ, ⟨hh₃, hstack, rfl⟩, .value (.shared trivial)⟩

namespace Beside

theorem declareClass (hs : Beside ρ m m') (ho : o ≠ some 0) (hp : InPlace ρ o m m') (name : Token)
    (superclass : Option Nat) (hlen : fs.length = fs'.length)
    (hfs : ∀ f f', (f, f') ∈ fs.zip fs' →
      Braced (deeper (if superclass.isSome then 2 else 1) o) (.function f) (.function f')) :
    Follows (m.declareClass name superclass fs) (m'.declareClass name superclass fs') := by
  have hi := hp.counterpart ho
  obtain ⟨e, hh⟩ := hs.heap.define hi (v := .nil) trivial name.lexeme
  rw [Machine.declareClass_eq hp.lt_size.1, Machine.declareClass_eq hp.lt_size.2, hs.printed]
  refine .inl ?_
  cases superclass with
  | none => exact alike_addClass hh ho (hp.extends e) hlen hfs hi (hs.stack.extends e)
  | some c =>
    obtain ⟨ρ₁, e', hh', hp'⟩ := hh.enclose (hp.extends e) [("super", .cls c)]
      (shared_singleton (v := .cls c) trivial _)
    exact alike_addClass hh' (deeper_ne_zero 0 o) hp' hlen (by simpa using hfs)
      (e'.counterparts hi) (hs.stack.extends (e.trans e'))

/-! ## Calls -/

theorem invoke (hs : Beside ρ m m') (hc : ClosureAlike ρ m.heap m'.heap 0 c c')
    (hargs : ∀ v ∈ arguments, Shared ρ m.heap m'.heap v) (hr : ResultAlike ρ result result') :
    Follows (m.invoke s c arguments result) (m'.invoke s' c' arguments result') := by
  cases hc with
  | @intro o f f' frame frame' _ ho hf hp =>
    rw [deeper_zero] at hf
    cases hf with
    | @body _ ss ss' name ps hss =>
      obtain ⟨ρ₁, e, hh, hp'⟩ := hs.heap.enclose hp (Machine.bindParameters ps arguments [])
        (fun x v hx => by
          rcases Machine.mem_of_bindParameters hx with hv | hv
          · exact hargs v hv
          · cases hv)
      exact (hs.grow e hh).enter (.activation (hr.extends e) (hs.stack.extends e)) (.run hp' hss)

theorem instantiate (hs : Beside ρ m m') (cls : Nat)
    (hargs : ∀ v ∈ arguments, Shared ρ m.heap m'.heap v) :
    Follows (m.instantiate s cls arguments) (m'.instantiate s' cls arguments) := by
  obtain ⟨e, hh⟩ := hs.heap.addInstance cls
  have hobject : m'.heap.instances.size = m.heap.instances.size := by rw [hs.heap.instances]
  unfold Machine.instantiate
  rw [hs.heap.looks.method?]
  cases hk : m.heap.method? cls Heap.initName with
  | none =>
    simp only [Heap.addInstance, hobject]
    exact (hs.grow e hh).yield (v := .object m.heap.instances.size) trivial
  | some k =>
    obtain ⟨c, c', hc, hc', hm⟩ := hs.heap.method? hk
    obtain ⟨ρ₁, e', hh', hcall⟩ := hh.encloseReceiver (hm.extends e)
      (show Shared ρ _ _ (.object m.heap.instances.size) from trivial)
    simp only [hc, hc']
    have hresult : ResultAlike ρ₁ (.created m.heap.instances.size)
        (.created m.heap.instances.size) := .created
    simp only [Heap.addInstance, hobject] at hresult hcall hh' ⊢
    exact ((hs.grow e hh).grow e' hh').invoke hcall
      (fun v hv => (hargs v hv).extends (e.trans e')) hresult

theorem callValue (hs : Beside ρ m m') (hclock : s'.clock = s.clock)
    (hv : Shared ρ m.heap m'.heap callee) (hargs : ∀ v ∈ arguments, Shared ρ m.heap m'.heap v) :
    Follows (m.callValue s callee arguments) (m'.callValue s' callee arguments) := by
  cases callee with
  | clock =>
    obtain ⟨e, hh⟩ := hs.heap.tick
    simp only [Machine.callValue, hclock, hs.heap.ticks]
    exact (hs.grow e hh).yield (v := .number _) trivial
  | cls c => exact hs.instantiate c hargs
  | closure i =>
    obtain ⟨c, c', hc, hc', hcall⟩ := hv
    have hresult : ResultAlike ρ (if c.isInitializer then .receiver c.frame else .returned)
        (if c'.isInitializer then .receiver c'.frame else .returned) := by
      cases hcall with
      | intro ho _ hp =>
        dsimp only
        split
        · exact .receiver (hp.counterpart ho)
        · exact .returned
    simp only [Machine.callValue, hc, hc']
    exact hs.invoke hcall hargs hresult
  | _ => exact hs.fault .absent

theorem call (hs : Beside ρ m m') (hclock : s'.clock = s.clock)
    (hv : Shared ρ m.heap m'.heap callee) (hargs : ∀ v ∈ arguments, Shared ρ m.heap m'.heap v)
    (paren : Token) :
    Follows (m.call s callee paren arguments) (m'.call s' callee paren arguments) := by
  unfold Machine.call
  rw [hs.heap.looks.arity?]
  cases m.heap.arity? callee with
  | none => exact hs.error ..
  | some n =>
    dsimp only
    split
    · have hcalled : Beside ρ { m with callToken := some paren }
          { m' with callToken := some paren } := ⟨hs.heap, hs.stack, hs.printed⟩
      exact hcalled.callValue hclock hv hargs
    · exact hs.error ..

/-- A call ends: its answer arrives in the frames of the callers. -/
theorem finishCall (hs : Beside ρ m m') (hr : ResultAlike ρ result result')
    (hv : Shared ρ m.heap m'.heap v) :
    Follows (m.finishCall m.frame result v) (m'.finishCall m'.frame result' v) := by
  cases hr with
  | returned => exact hs.yield hv
  | @created object => exact hs.yield (v := .object object) trivial
  | @receiver frame frame' hi =>
    obtain ⟨f, f', hf, hf', hbs⟩ := hs.heap.frames.bindings hi
    have hget : m'.heap.frames.getAt frame' 0 "this" = m.heap.frames.getAt frame 0 "this" := by
      simp only [Frames.getAt, Frames.frameAt_zero hf, Frames.frameAt_zero hf',
        hs.heap.frames.lookup? hi]
    simp only [Machine.finishCall, hget]
    cases hgot : m.heap.frames.getAt frame 0 "this" with
    | error f => exact hs.fault _
    | ok receiver =>
      obtain ⟨j, -, hj⟩ := Frames.lookup?_of_getAt hgot
      exact hs.yield (hs.heap.values hj)

end Beside

end LoxLang.Braces
