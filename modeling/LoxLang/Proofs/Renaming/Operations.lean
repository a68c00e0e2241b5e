import LoxLang.Proofs.History
import LoxLang.Proofs.Renaming.Heaps

/-!
# Operations beside a renaming

The operations that steps are made of, done by two machines that are alike: a read or a store of a
variable (`read`, `store`), a property, a class (`declareClass`), a call (`call`). Each leaves them
alike.
-/

namespace LoxLang

variable {φ : Renaming} {S : List Nat} {m m' : Machine}

theorem Reference.rename_this {k : Reference} (hk : o.isSome → k.name.lexeme = "this") :
    k.rename φ o = k := by
  cases o with
  | none => exact k.rename_none
  | some n => exact Reference.rename_of_ne (hk rfl ▸ φ.old_identifier.ne_this.symm)

theorem FailureAlike.ofFrame (φ : Renaming) (bound : Bool) (f : FrameFault) :
    FailureAlike φ (.fault (.ofFrame f)) (.fault (.ofFrame (f.rename φ bound))) := by
  cases f with
  | unbound x => exact .unbound
  | outside => exact .fault

theorem Shared.of_ne_closure (hv : ∀ k, v ≠ .closure k) : Shared φ S h h' v := by
  cases v with
  | closure k => exact absurd rfl (hv k)
  | _ => trivial

namespace Beside

variable {i : Nat} {task task' : Control}

theorem grow (hs : Beside φ S m m') (e : Extends S m.heap m'.heap S₁ h₁ h₁')
    (hh : HeapAlike φ S₁ h₁ h₁') :
    Beside φ S₁ { m with heap := h₁ } { m' with heap := h₁' } :=
  ⟨hh, hs.stack.extends e, hs.frame, hs.printed, hs.callToken⟩

theorem fail (hs : Beside φ S m m') (hf : FailureAlike φ f f') : Alike φ (m.fail f) (m'.fail f') :=
  ⟨S, ⟨hs.heap, hs.stack, hs.frame, hs.printed, hs.callToken⟩, .failing hf⟩

theorem error (hs : Beside φ S m m') (t : Token) (e : RuntimeError) :
    Alike φ (m.error t e) (m'.error t e) :=
  hs.fail (.error rfl)

theorem fault (hs : Beside φ S m m') (f : Fault) : Alike φ (m.fault f) (m'.fault f) :=
  hs.fail .fault

theorem yield (hs : Beside φ S m m') (hv : Shared φ S m.heap m'.heap v) :
    Alike φ (m.yield v) (m'.yield v) :=
  ⟨S, ⟨hs.heap, hs.stack, hs.frame, hs.printed, hs.callToken⟩, .value hv⟩

theorem proceed (hs : Beside φ S m m')
    (hc : ControlAlike φ S m.heap m'.heap task task' m.frame) :
    Alike φ (m.proceed task) (m'.proceed task') :=
  ⟨S, ⟨hs.heap, hs.stack, hs.frame, hs.printed, hs.callToken⟩, hc⟩

theorem size_eq (hs : Beside φ S m m') : m'.stack.size = m.stack.size := by
  rw [← m.stack.size_eq, ← m'.stack.size_eq, hs.stack.length_eq]

/-- A part of the task is done in a frame of its own, or in the same. -/
theorem enter (hs : Beside φ S m m')
    (hstack : StackAlike φ S m.heap m'.heap (w :: m.stack.items) (w' :: m'.stack.items) i)
    (hc : ControlAlike φ S m.heap m'.heap task task' i) (s : Setting) :
    Alike φ (m.enter s w i task) (m'.enter s w' i task') := by
  unfold Machine.enter
  rw [hs.size_eq]
  split
  · rw [hs.callToken]
    exact hs.fail .overflow
  · exact ⟨S, ⟨hs.heap, hstack, rfl, hs.printed, hs.callToken⟩, hc⟩

theorem await (hs : Beside φ S m m') (hd : Depth S m.heap.frames m.frame o)
    (hw : WaitingAlike φ S m.heap m'.heap o w w')
    (hc : ControlAlike φ S m.heap m'.heap task task' m.frame) (s : Setting) :
    Alike φ (m.await s w task) (m'.await s w' task') := by
  unfold Machine.await
  rw [hs.frame]
  exact hs.enter (.waiting hd hw hs.stack) hc s

/-! ## Variables -/

theorem read (hs : Beside φ S m m') (hd : Depth S m.heap.frames m.frame o)
    (hx : φ.Avoids o r.name.lexeme) : Alike φ (m.read r) (m'.read (r.rename φ o)) := by
  unfold Machine.read
  cases hr : r.hops with
  | none =>
    rw [Reference.rename_of_global hr, hr]
    dsimp only
    rw [hs.heap.get?_globals]
    cases hv : m.heap.frames.get? Heap.globals r.name.lexeme with
    | none => exact hs.error ..
    | some v =>
      obtain ⟨j, -, hj⟩ := Option.bind_eq_some_iff.1 hv
      exact hs.yield (hs.heap.values hj)
  | some d =>
    have hhops : (r.rename φ o).hops = some d := hr
    simp only [hhops, Reference.lexeme_rename hr, hs.frame, hs.heap.getAt hd hx d]
    cases hget : m.heap.frames.getAt m.frame d r.name.lexeme with
    | error f => exact hs.fail (.ofFrame φ _ f)
    | ok v =>
      obtain ⟨j, -, hj⟩ := Frames.lookup?_of_getAt hget
      exact hs.yield (hs.heap.values hj)

theorem store (hs : Beside φ S m m') {name name' : Token} (hx : j ∈ S → name.lexeme ≠ φ.new)
    (hname : name'.lexeme = φ.name (j ∈ S) name.lexeme) (hv : Shared φ S m.heap m'.heap v) :
    Alike φ (m.store j name v) (m'.store j name' v) := by
  obtain ⟨e, hh⟩ := hs.heap.define hx hv
  rw [Machine.store, Machine.store, hname]
  exact (hs.grow e hh).yield (hv.extends e)

theorem assign (hs : Beside φ S m m') (hd : Depth S m.heap.frames m.frame o)
    (hx : φ.Avoids o r.name.lexeme) (hv : Shared φ S m.heap m'.heap v) :
    Alike φ (m.assign r v) (m'.assign (r.rename φ o) v) := by
  unfold Machine.assign
  cases hr : r.hops with
  | none =>
    rw [Reference.rename_of_global hr, hr]
    dsimp only
    rw [hs.heap.holder?_globals]
    cases hj : m.heap.frames.holder? Heap.globals r.name.lexeme with
    | none => exact hs.error ..
    | some j =>
      obtain rfl := hs.heap.holder?_eq_globals hj
      exact hs.store (fun hm => absurd hm hs.heap.unmarked) (by simp [hs.heap.unmarked]) hv
  | some d =>
    have hhops : (r.rename φ o).hops = some d := hr
    simp only [hhops, hs.frame, hs.heap.frames.frameAt]
    cases hj : m.heap.frames.frameAt m.frame d with
    | error f => exact hs.fail .fault
    | ok j =>
      have hjS := hd.frameAt hj
      refine hs.store (fun hm => hx (by simp [hjS.1 hm])) ?_ hv
      simp only [Reference.lexeme_rename hr, hjS]

/-! ## Operators -/

theorem conclude (hs : Beside φ S m m') (hc : Machine.Concludes m m' t t after after') :
    Alike φ after after' := by
  cases hc with
  | yield hv => exact hs.yield (.of_ne_closure hv)
  | error => exact hs.error ..
  | fault => exact hs.fault _

end Beside

/-! ## Methods -/

/-- A receiver gets a frame around a method, which the method can be called in. -/
theorem HeapAlike.encloseReceiver {h h' : Heap} (hh : HeapAlike φ S h h')
    (hc : ClosureAlike φ S h 1 c c') (hv : Shared φ S h h' receiver) :
    ∃ S₁, Extends S h h' S₁ (h.encloseReceiver c receiver).2 (h'.encloseReceiver c' receiver).2 ∧
      HeapAlike φ S₁ (h.encloseReceiver c receiver).2 (h'.encloseReceiver c' receiver).2 ∧
      ClosureAlike φ S₁ (h.encloseReceiver c receiver).2 0
        { c with frame := (h.encloseReceiver c receiver).1 }
        { c' with frame := (h'.encloseReceiver c' receiver).1 } := by
  cases hc with
  | @intro o f f' frame _ hf hd =>
    obtain ⟨S₁, e, hh₁, hd₁⟩ := hh.enclose hd .deeper [("this", receiver)]
      (fun x v hx => (Bindings.of_get?_single hx).2 ▸ hv)
      (fun h0 => absurd h0 (deeper_ne_zero 0 o))
    simp only [deeper_ne_zero, decide_false, Bindings.rename_false] at e hh₁
    refine ⟨S₁, e, hh₁, ?_⟩
    simp only [Heap.encloseReceiver, Heap.enclose, hh.frames.size]
    exact .intro ((deeper_zero (deeper 1 o)).symm ▸ hf) hd₁

namespace Beside

theorem bindMethod (hs : Beside φ S m m') (hc : m.heap.closures[k]? = some c)
    (hc' : m'.heap.closures[k]? = some c') (hm : ClosureAlike φ S m.heap 1 c c')
    (hv : Shared φ S m.heap m'.heap receiver) :
    Alike φ (m.bindMethod k receiver) (m'.bindMethod k receiver) := by
  obtain ⟨S₁, e, hh, hcall⟩ := hs.heap.encloseReceiver hm hv
  have hi : (m'.heap.encloseReceiver c' receiver).2.closures.size =
      (m.heap.encloseReceiver c receiver).2.closures.size := hh.looks.closures_size
  obtain ⟨e', hh'⟩ := hh.addClosure hcall.signature
  simp only [Machine.bindMethod, hc, hc', Heap.bind, Heap.addClosure, hi]
  exact ((hs.grow e hh).grow e' hh').yield
    ⟨_, _, Array.getElem?_push_size, hi ▸ Array.getElem?_push_size, hcall.extends e'⟩

theorem property (hs : Beside φ S m m') (object : Nat) (name : Token) :
    Alike φ (m.property object name) (m'.property object name) := by
  simp only [Machine.property, hs.heap.instances]
  cases ho : m.heap.instances[object]? with
  | none => exact hs.fault _
  | some o =>
    dsimp only
    cases hf : o.fields.get? name.lexeme with
    | some v => exact hs.yield (hs.heap.fields ho hf)
    | none =>
      dsimp only
      rw [hs.heap.looks.method?]
      cases hk : m.heap.method? o.cls name.lexeme with
      | none => exact hs.error ..
      | some k =>
        obtain ⟨c, c', hc, hc', hm⟩ := hs.heap.method? hk
        exact hs.bindMethod hc hc' hm trivial

theorem superMethod (hs : Beside φ S m m') (hd : Depth S m.heap.frames m.frame o)
    (keyword : Reference) (method : Token) :
    Alike φ (m.superMethod keyword method) (m'.superMethod keyword method) := by
  unfold Machine.superMethod
  cases hk : keyword.hops with
  | none => exact hs.fault _
  | some d =>
    have hsuper := hs.heap.getAt hd (fun _ => φ.new_identifier.ne_super.symm) d
    have hthis := hs.heap.getAt hd (fun _ => φ.new_identifier.ne_this.symm) (d - 1)
    simp only [Renaming.name_super, Renaming.name_this] at hsuper hthis
    dsimp only
    rw [hs.frame, hsuper, hthis]
    cases m.heap.frames.getAt m.frame d "super" with
    | error f => exact hs.fail (.ofFrame φ _ f)
    | ok v =>
      cases hget : m.heap.frames.getAt m.frame (d - 1) "this" with
      | error f => exact hs.fail (.ofFrame φ _ f)
      | ok receiver =>
        obtain ⟨j, -, hj⟩ := Frames.lookup?_of_getAt hget
        cases v with
        | cls c =>
          delta Except.mapError
          simp only [hs.heap.looks.method?]
          cases hk : m.heap.method? c method.lexeme with
          | none => exact hs.error ..
          | some k =>
            obtain ⟨c, c', hc, hc', hm⟩ := hs.heap.method? hk
            exact hs.bindMethod hc hc' hm (hs.heap.values hj)
        | _ => exact hs.fault _

end Beside

/-! ## Classes -/

/-- The methods of a class are added to both heaps under the same numbers. -/
theorem HeapAlike.addMethods {h h' : Heap} {fs fs' : List Function} (methods : Bindings Nat)
    (hh : HeapAlike φ S h h') (hd : Depth S h.frames frame o) (hlen : fs.length = fs'.length)
    (hfs : ∀ f f', (f, f') ∈ fs.zip fs' → Renamed φ (deeper 1 o) (.function f) (.function f'))
    (hprev : ∀ x k, methods.get? x = some k → ∃ c c', h.closures[k]? = some c ∧
      h'.closures[k]? = some c' ∧ ClosureAlike φ S h 1 c c') :
    (Machine.addMethods frame fs' methods h').1 = (Machine.addMethods frame fs methods h).1 ∧
      Extends S h h' S (Machine.addMethods frame fs methods h).2
        (Machine.addMethods frame fs' methods h').2 ∧
      HeapAlike φ S (Machine.addMethods frame fs methods h).2
        (Machine.addMethods frame fs' methods h').2 ∧
      ∀ x k, (Machine.addMethods frame fs methods h).1.get? x = some k →
        ∃ c c', (Machine.addMethods frame fs methods h).2.closures[k]? = some c ∧
          (Machine.addMethods frame fs' methods h').2.closures[k]? = some c' ∧
          ClosureAlike φ S (Machine.addMethods frame fs methods h).2 1 c c' := by
  induction fs generalizing fs' methods h h' with
  | nil =>
    obtain rfl := List.length_eq_zero_iff.1 hlen.symm
    exact ⟨rfl, .refl S h h', hh, hprev⟩
  | cons f fs ih =>
    obtain ⟨f', fs', rfl⟩ := List.exists_cons_of_length_eq_add_one hlen.symm
    have hf := hfs f f' (by simp)
    have hname : f'.name = f.name := hf.signature.1
    have hc : ClosureAlike φ S h 1 ⟨f, frame, f.name.lexeme = Heap.initName⟩
        ⟨f', frame, f.name.lexeme = Heap.initName⟩ := .intro hf hd
    obtain ⟨e, hh₁⟩ := hh.addClosure hc.signature
    have hrest := ih (methods.insert f.name.lexeme h.closures.size) hh₁ (hd.extends e)
      (Nat.succ.inj hlen) (fun g g' hg => hfs g g' (by simp [hg])) ?_
    · simp only [Machine.addMethods, Heap.addClosure, hname, hh.looks.closures_size] at hrest ⊢
      exact ⟨hrest.1, e.trans hrest.2.1, hrest.2.2⟩
    · intro x k hk
      by_cases hx : x = f.name.lexeme
      · rw [hx, Bindings.get?_insert_self] at hk
        cases hk
        refine ⟨_, _, Array.getElem?_push_size, ?_, hc.extends e⟩
        rw [← hh.looks.closures_size]
        exact Array.getElem?_push_size
      · rw [Bindings.get?_insert_of_ne hx] at hk
        obtain ⟨c, c', hc, hc', halike⟩ := hprev x k hk
        exact ⟨c, c', e.left.closures hc, e.right.closures hc', halike.extends e⟩

/-- What is left to do of a class once its methods have their frame. -/
theorem alike_addClass {h h' : Heap} {name : Token} {superclass : Option Nat}
    (hh : HeapAlike φ S h h') (hd : Depth S h.frames frame o) (hlen : fs.length = fs'.length)
    (hfs : ∀ f f', (f, f') ∈ fs.zip fs' → Renamed φ (deeper 1 o) (.function f) (.function f'))
    (hx : i ∈ S → name.lexeme ≠ φ.new) (hold : i ∈ S → name.lexeme ≠ φ.old)
    (hs : StackAlike φ S h h' stack.items stack'.items i) :
    Alike φ
      (let (methods, heap) := Machine.addMethods frame fs [] h
      let (c, heap) := heap.addClass ⟨name.lexeme, superclass, methods⟩
      ⟨.value .nil, stack, i, heap.define i name.lexeme (.cls c), printed, callToken⟩)
      (let (methods, heap) := Machine.addMethods frame fs' [] h'
      let (c, heap) := heap.addClass ⟨name.lexeme, superclass, methods⟩
      ⟨.value .nil, stack', i, heap.define i name.lexeme (.cls c), printed, callToken⟩) := by
  have hname : φ.name (i ∈ S) name.lexeme = name.lexeme := by
    by_cases hi : i ∈ S
    · exact φ.name_of_ne (hold hi) _
    · simp [hi]
  obtain ⟨hmethods, e, hh₁, hclosures⟩ := hh.addMethods [] hd hlen hfs nofun
  obtain ⟨e', hh₂⟩ := hh₁.addClass (c := ⟨name.lexeme, superclass, _⟩) hclosures
  obtain ⟨e'', hh₃⟩ := hh₂.define hx (v := .cls (Machine.addMethods frame fs [] h).2.classes.size)
    trivial
  rw [hname] at e'' hh₃
  have halike := hs.extends (e.trans (e'.trans e''))
  simp only [hmethods, Heap.addClass, hh₁.classes] at hh₃ halike ⊢
  exact ⟨S, ⟨hh₃, halike, rfl, rfl, rfl⟩, .value trivial⟩

namespace Beside

theorem declareClass (hs : Beside φ S m m') (hd : Depth S m.heap.frames m.frame o)
    {name : Token} (superclass : Option Nat) (hx : φ.Avoids o name.lexeme)
    (hold : o = some 0 → name.lexeme ≠ φ.old) (hlen : fs.length = fs'.length)
    (hfs : ∀ f f', (f, f') ∈ fs.zip fs' →
      Renamed φ (deeper (if superclass.isSome then 2 else 1) o) (.function f) (.function f')) :
    Alike φ (m.declareClass name superclass fs) (m'.declareClass name superclass fs') := by
  have hlt : m.frame < m.size := hd.lt_size
  have hlt' : m'.frame < m'.size :=
    Nat.lt_of_lt_of_eq (hs.frame ▸ hlt) hs.heap.frames.size.symm
  have hx : m.frame ∈ S → name.lexeme ≠ φ.new := fun hm => hx (by simp [hd.mem.1 hm])
  have hold : m.frame ∈ S → name.lexeme ≠ φ.old := fun hm => hold (hd.mem.1 hm)
  have hname : φ.name (m.frame ∈ S) name.lexeme = name.lexeme := by
    by_cases hi : m.frame ∈ S
    · exact φ.name_of_ne (hold hi) _
    · simp [hi]
  obtain ⟨e, hh⟩ := hs.heap.define hx (v := .nil) trivial
  rw [hname] at e hh
  rw [Machine.declareClass_eq hlt, Machine.declareClass_eq hlt', hs.frame, hs.printed,
    hs.callToken]
  cases superclass with
  | none => exact alike_addClass hh (hd.extends e) hlen hfs hx hold (hs.stack.extends e)
  | some c =>
    obtain ⟨S₁, e', hh', hd'⟩ := hh.enclose (hd.extends e) .deeper [("super", .cls c)]
      (fun x v hv => (Bindings.of_get?_single hv).2 ▸ trivial)
      (fun h0 => absurd h0 (deeper_ne_zero 0 o))
    simp only [deeper_ne_zero, decide_false, Bindings.rename_false] at e' hh'
    have hmarks : m.frame ∈ S₁ ↔ m.frame ∈ S := e'.marks (hd.extends e).lt_size
    have hframe : ((m'.heap.define m.frame name.lexeme .nil).enclose m.frame
        [("super", .cls c)]).1 = ((m.heap.define m.frame name.lexeme .nil).enclose m.frame
        [("super", .cls c)]).1 := hh.frames.size
    dsimp only
    rw [hframe]
    exact alike_addClass hh' hd' hlen (by simpa using hfs) (fun hm => hx (hmarks.1 hm))
      (fun hm => hold (hmarks.1 hm)) (hs.stack.extends (e.trans e'))

end Beside

/-! ## Calls -/

theorem bindParameters_rename {ps : List Token} (hps : ∀ p ∈ ps, p.lexeme ≠ φ.new)
    (vs : List Value) {bs : Bindings Value} (hbs : ¬bs.contains φ.new) (bound : Bool) :
    Machine.bindParameters (ps.map (·.rename φ bound)) vs (bs.rename φ bound) =
        (Machine.bindParameters ps vs bs).rename φ bound ∧
      ¬(Machine.bindParameters ps vs bs).contains φ.new := by
  induction ps generalizing vs bs with
  | nil => exact ⟨by cases vs <;> rfl, by cases vs <;> exact hbs⟩
  | cons p ps ih =>
    obtain ⟨hp, hps⟩ := List.forall_mem_cons.1 hps
    cases vs with
    | nil => exact ⟨rfl, hbs⟩
    | cons v vs =>
      have hinsert : ¬(bs.insert p.lexeme v).contains φ.new := by
        simpa [Bindings.contains_insert, hp.symm] using hbs
      simp only [List.map_cons, Machine.bindParameters, Token.lexeme_rename,
        Bindings.insert_rename hbs hp]
      exact ih hps vs hinsert

namespace Beside

theorem invoke (hs : Beside φ S m m') (hc : ClosureAlike φ S m.heap 0 c c')
    (hargs : ∀ v ∈ arguments, Shared φ S m.heap m'.heap v) (result : CallResult) (s : Setting) :
    Alike φ (m.invoke s c arguments result) (m'.invoke s c' arguments result) := by
  cases hc with
  | @intro o f f' frame _ hf hd =>
    rw [deeper_zero] at hf
    cases hf with
    | @body _ o' ps ss ss' name ho hps hss =>
      let bs := Machine.bindParameters ps arguments []
      have hbs : Machine.bindParameters (ps.map (·.rename φ (o' = some 0))) arguments [] =
            bs.rename φ (o' = some 0) ∧
          (o' = some 0 → ¬bs.contains φ.new) := by
        by_cases h0 : o' = some 0
        · have hempty : ¬Bindings.contains φ.new ([] : Bindings Value) := nofun
          have := bindParameters_rename (hps h0) arguments hempty (o' = some 0)
          exact ⟨this.1, fun _ => this.2⟩
        · simp [h0, bs]
      obtain ⟨S₁, e, hh, hd'⟩ := hs.heap.enclose hd ho bs
        (fun x v hx => by
          rcases Machine.mem_of_bindParameters hx with hv | hv
          · exact hargs v hv
          · cases hv)
        hbs.2
      have hentered := (hs.grow e hh).enter (w := .activation m.frame result)
        (.activation (hs.stack.extends e)) (.run hd' hss) s
      rw [← hbs.1] at hentered
      have hnew (bs : Bindings Value) : (m'.heap.enclose frame bs).1 = m.heap.frames.all.size :=
        hs.heap.frames.size
      simp only [Machine.invoke, hnew, hs.frame, Function.parameters, Function.body] at hentered ⊢
      exact hentered

/-- A new instance is set up by its initializer, if its class has one. -/
theorem instantiate (hs : Beside φ S m m') (cls : Nat)
    (hargs : ∀ v ∈ arguments, Shared φ S m.heap m'.heap v) (s : Setting) :
    Alike φ (m.instantiate s cls arguments) (m'.instantiate s cls arguments) := by
  obtain ⟨e, hh⟩ := hs.heap.addInstance cls
  have hobject : m'.heap.instances.size = m.heap.instances.size := by rw [hs.heap.instances]
  unfold Machine.instantiate
  rw [hs.heap.looks.method?]
  cases hk : m.heap.method? cls Heap.initName with
  | none =>
    simp only [Heap.addInstance, hobject]
    exact (hs.grow e hh).yield trivial
  | some k =>
    obtain ⟨c, c', hc, hc', hm⟩ := hs.heap.method? hk
    obtain ⟨S₁, e', hh', hcall⟩ := hh.encloseReceiver (hm.extends e)
      (show Shared φ S _ _ (.object m.heap.instances.size) from trivial)
    simp only [hc, hc']
    have hinvoked := ((hs.grow e hh).grow e' hh').invoke hcall
      (fun v hv => (hargs v hv).extends (e.trans e')) (.created m.heap.instances.size) s
    simp only [Heap.addInstance, hobject] at hinvoked ⊢
    exact hinvoked

theorem callValue (hs : Beside φ S m m') (hv : Shared φ S m.heap m'.heap callee)
    (hargs : ∀ v ∈ arguments, Shared φ S m.heap m'.heap v) (s : Setting) :
    Alike φ (m.callValue s callee arguments) (m'.callValue s callee arguments) := by
  cases callee with
  | clock =>
    obtain ⟨e, hh⟩ := hs.heap.tick
    simp only [Machine.callValue, hs.heap.ticks]
    exact (hs.grow e hh).yield (v := .number _) trivial
  | cls c => exact hs.instantiate c hargs s
  | closure i =>
    obtain ⟨c, c', hc, hc', hcall⟩ := hv
    have hresult : c'.isInitializer = c.isInitializer ∧ c'.frame = c.frame := by
      cases hcall
      exact ⟨rfl, rfl⟩
    simp only [Machine.callValue, hc, hc', hresult]
    exact hs.invoke hcall hargs _ s
  | _ => exact hs.fault .absent

theorem call (hs : Beside φ S m m') (hv : Shared φ S m.heap m'.heap callee)
    (hargs : ∀ v ∈ arguments, Shared φ S m.heap m'.heap v) (paren : Token) (s : Setting) :
    Alike φ (m.call s callee paren arguments) (m'.call s callee paren arguments) := by
  unfold Machine.call
  rw [hs.heap.looks.arity?]
  cases m.heap.arity? callee with
  | none => exact hs.error ..
  | some n =>
    dsimp only
    split
    · have hcalled : Beside φ S { m with callToken := some paren }
          { m' with callToken := some paren } :=
        ⟨hs.heap, hs.stack, hs.frame, hs.printed, rfl⟩
      exact hcalled.callValue hv hargs s
    · exact hs.error ..

/-- A call ends: its answer arrives in the frame of the caller. -/
theorem finishCall (hs : Beside φ S m m') (result : CallResult)
    (hv : Shared φ S m.heap m'.heap v) :
    Alike φ (m.finishCall m.frame result v) (m'.finishCall m.frame result v) := by
  have hback : Beside φ S m { m' with frame := m.frame } :=
    ⟨hs.heap, hs.stack, rfl, hs.printed, hs.callToken⟩
  cases result with
  | returned => exact hback.yield hv
  | created object => exact hback.yield (v := .object object) trivial
  | receiver frame =>
    have hthis (j : Nat) : m'.heap.frames.lookup? j "this" = m.heap.frames.lookup? j "this" := by
      have hlookup := hs.heap.frames.lookup? (i := j) (x := "this") fun _ =>
        φ.new_identifier.ne_this.symm
      rwa [Renaming.name_this] at hlookup
    have hget : m'.heap.frames.getAt frame 0 "this" = m.heap.frames.getAt frame 0 "this" := by
      simp only [Frames.getAt, hs.heap.frames.frameAt, hthis]
    simp only [Machine.finishCall, hget]
    cases hgot : m.heap.frames.getAt frame 0 "this" with
    | error f => exact hback.fault _
    | ok receiver =>
      obtain ⟨j, -, hj⟩ := Frames.lookup?_of_getAt hgot
      exact hback.yield (hs.heap.values hj)

end Beside

end LoxLang
