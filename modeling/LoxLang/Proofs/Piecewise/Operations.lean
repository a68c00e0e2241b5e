import LoxLang.Proofs.Piecewise.Machines

/-!
# Operations of machines whose trees match

The operations that steps are made of, done by two machines whose trees match: a read or a store of
a variable (`read`, `store`), a property, a class (`declareClass`), a call (`call`). Each leaves
them inside the same statement of the program.
-/

namespace LoxLang

variable {P : Pairing} {more : List Stmt} {out : Array String} {m m' : Machine}

namespace Abreast

variable {task task' : Control}

/-- The heaps grow, and another frame may become the current one. -/
theorem grow (hs : Abreast P more out m m') (hh : h₁.Matches P h₁') (hi : i' = i) :
    Abreast P more out { m with heap := h₁, frame := i } { m' with heap := h₁', frame := i' } :=
  ⟨hh, hs.stack, hi, hs.printed⟩

/-- Both machines go on with a task in place of the one in hand. -/
theorem proceed (hs : Abreast P more out m m') (hc : task.Matches P task') :
    Inside P more out (m.proceed task) (m'.proceed task') :=
  ⟨⟨hs.heap, hs.stack, hs.frame, hs.printed⟩, hc⟩

theorem yield (hs : Abreast P more out m m') (v : Value) :
    Inside P more out (m.yield v) (m'.yield v) := hs.proceed .value

theorem error (hs : Abreast P more out m m') (ht : P.rel t t') (e : RuntimeError) :
    Inside P more out (m.error t e) (m'.error t' e) := hs.proceed (.failing (.error ht))

theorem fault (hs : Abreast P more out m m') (f : Fault) :
    Inside P more out (m.fault f) (m'.fault f) := hs.proceed (.failing .fault)

theorem size_eq (hs : Abreast P more out m m') : m'.stack.size = m.stack.size := by
  rw [← m.stack.size_eq, ← m'.stack.size_eq, hs.stack.length_eq]

theorem enter (hs : Abreast P more out m m') (hw : w.Matches P w') (hc : task.Matches P task')
    (s : Setting) (i : Nat) : Inside P more out (m.enter s w i task) (m'.enter s w' i task') := by
  unfold Machine.enter
  rw [hs.size_eq]
  split
  · exact hs.proceed (.failing .overflow)
  · exact ⟨⟨hs.heap, .push hw hs.stack, rfl, hs.printed⟩, hc⟩

theorem await (hs : Abreast P more out m m') (hw : w.Matches P w') (hc : task.Matches P task')
    (s : Setting) : Inside P more out (m.await s w task) (m'.await s w' task') := by
  unfold Machine.await
  rw [hs.frame]
  exact hs.enter hw hc ..

/-! ## Variables -/

theorem read (hs : Abreast P more out m m') (hr : r.Matches P r') :
    Inside P more out (m.read r) (m'.read r') := by
  unfold Machine.read
  rw [hr.hops, P.lexeme hr.name, hs.heap.frames, hs.frame]
  split
  · split
    · exact hs.yield _
    · exact hs.fault _
  · split
    · exact hs.yield _
    · exact hs.error hr.name _

theorem store (hs : Abreast P more out m m') (ht : P.rel t t') (i : Nat) (v : Value) :
    Inside P more out (m.store i t v) (m'.store i t' v) := by
  rw [Machine.store, Machine.store, P.lexeme ht]
  exact (hs.grow (hs.heap.define ..) hs.frame).yield v

theorem assign (hs : Abreast P more out m m') (hr : r.Matches P r') (v : Value) :
    Inside P more out (m.assign r v) (m'.assign r' v) := by
  unfold Machine.assign
  rw [hr.hops, P.lexeme hr.name, hs.heap.frames, hs.frame]
  split
  · split
    · exact hs.store hr.name ..
    · exact hs.fault _
  · split
    · exact hs.store hr.name ..
    · exact hs.error hr.name _

theorem define (hs : Abreast P more out m m') (ht : P.rel t t') (v : Value) :
    Inside P more out (m.define t v) (m'.define t' v) := by
  rw [Machine.define, Machine.define, P.lexeme ht, hs.frame]
  exact (hs.grow (hs.heap.define ..) rfl).yield .nil

/-! ## Operators -/

theorem conclude (hs : Abreast P more out m m') (ht : P.rel t t')
    (hc : Machine.Concludes m m' t t' after after') : Inside P more out after after' := by
  cases hc with
  | yield => exact hs.yield _
  | error => exact hs.error ht _
  | fault => exact hs.fault _

end Abreast

/-! ## Instances and classes -/

namespace Heap.Matches

variable {h h' : Heap}

theorem bind (hh : h.Matches P h') (hc : c.Matches P c') (receiver : Value) :
    (h'.bind c' receiver).1 = (h.bind c receiver).1 ∧
      (h.bind c receiver).2.Matches P (h'.bind c' receiver).2 := by
  obtain ⟨hframe, hh⟩ := hh.encloseReceiver hc receiver
  simp only [Heap.bind, hframe]
  exact hh.addClosure (hc.inFrame _)

theorem addMethods (hh : h.Matches P h') (hfs : List.Forall₂ (FunctionMatches P) fs fs')
    (frame : Nat) (methods : Bindings Nat) :
    (Machine.addMethods frame fs' methods h').1 = (Machine.addMethods frame fs methods h).1 ∧
      (Machine.addMethods frame fs methods h).2.Matches P
        (Machine.addMethods frame fs' methods h').2 := by
  induction hfs generalizing h h' methods with
  | nil => exact ⟨rfl, hh⟩
  | @cons f f' _ _ hf _ ih =>
    have hclosure : Closure.Matches P ⟨f, frame, f.name.lexeme = initName⟩
        ⟨f', frame, f.name.lexeme = initName⟩ := ⟨hf, rfl, rfl⟩
    obtain ⟨hi, hh⟩ := hh.addClosure hclosure
    simp only [Machine.addMethods, P.lexeme hf.name, hi]
    exact ih hh _

theorem newClass (hh : h.Matches P h') (hfs : List.Forall₂ (FunctionMatches P) fs fs')
    (frame : Nat) (name : String) (superclass : Option Nat) :
    let r := Machine.addMethods frame fs [] h
    let r' := Machine.addMethods frame fs' [] h'
    (r'.2.addClass ⟨name, superclass, r'.1⟩).1 = (r.2.addClass ⟨name, superclass, r.1⟩).1 ∧
      (r.2.addClass ⟨name, superclass, r.1⟩).2.Matches P
        (r'.2.addClass ⟨name, superclass, r'.1⟩).2 := by
  obtain ⟨hmethods, hh⟩ := hh.addMethods hfs frame []
  dsimp only
  rw [hmethods]
  exact hh.addClass _

end Heap.Matches

namespace Abreast

theorem bindMethod (hs : Abreast P more out m m') (method : Nat) (receiver : Value) :
    Inside P more out (m.bindMethod method receiver) (m'.bindMethod method receiver) := by
  have hc := hs.heap.closure method
  unfold Machine.bindMethod
  generalize m.heap.closures[method]? = o at hc ⊢
  generalize m'.heap.closures[method]? = o' at hc ⊢
  cases hc with
  | none => exact hs.fault .absent
  | some hc =>
    obtain ⟨hi, hh⟩ := hs.heap.bind hc receiver
    dsimp only
    rw [hi]
    exact (hs.grow hh hs.frame).yield _

theorem property (hs : Abreast P more out m m') (object : Nat) (ht : P.rel t t') :
    Inside P more out (m.property object t) (m'.property object t') := by
  simp only [Machine.property, hs.heap.instances, hs.heap.looks.method?, P.lexeme ht]
  split
  · exact hs.fault _
  · split
    · exact hs.yield _
    · split
      · exact hs.bindMethod ..
      · exact hs.error ht _

theorem superMethod (hs : Abreast P more out m m') (hk : k.Matches P k') (ht : P.rel t t') :
    Inside P more out (m.superMethod k t) (m'.superMethod k' t') := by
  simp only [Machine.superMethod, hk.hops, P.lexeme hk.name, hs.heap.frames, hs.frame,
    hs.heap.looks.method?, P.lexeme ht]
  split
  · exact hs.fault _
  · split
    · exact hs.fault _
    · exact hs.fault _
    · split
      · exact hs.bindMethod ..
      · exact hs.error ht _
    · exact hs.fault _

theorem declareClass (hs : Abreast P more out m m') (hn : P.rel name name')
    (superclass : Option Nat) (hfs : List.Forall₂ (FunctionMatches P) fs fs') :
    Inside P more out (m.declareClass name superclass fs)
      (m'.declareClass name' superclass fs') := by
  have hdefined := hs.heap.define m.frame name.lexeme .nil
  unfold Machine.declareClass
  rw [P.lexeme hn, hs.frame]
  cases superclass with
  | none =>
    obtain ⟨hc, hh⟩ := hdefined.newClass hfs m.frame name.lexeme none
    dsimp only
    rw [hc, hh.frames]
    split
    · exact (hs.grow (hh.define ..) rfl).yield .nil
    · exact (hs.grow hh rfl).error hn _
  | some c =>
    obtain ⟨hframe, hh⟩ := hdefined.enclose m.frame [("super", .cls c)]
    obtain ⟨hc, hh⟩ := hh.newClass hfs
      ((m.heap.define m.frame name.lexeme .nil).enclose m.frame [("super", .cls c)]).1
      name.lexeme (some c)
    dsimp only
    rw [hframe, hc, hh.frames]
    split
    · exact (hs.grow (hh.define ..) rfl).yield .nil
    · exact (hs.grow hh rfl).error hn _

/-! ## Calls -/

theorem bindParameters_eq (hps : List.Forall₂ P.rel ps ps') (vs : List Value)
    (bs : Bindings Value) :
    Machine.bindParameters ps' vs bs = Machine.bindParameters ps vs bs := by
  induction hps generalizing vs bs with
  | nil => rfl
  | cons hp _ ih =>
    cases vs with
    | nil => rfl
    | cons v vs => rw [Machine.bindParameters, Machine.bindParameters, P.lexeme hp, ih]

theorem invoke (hs : Abreast P more out m m') (hc : c.Matches P c') (arguments : List Value)
    (result : CallResult) (s : Setting) :
    Inside P more out (m.invoke s c arguments result) (m'.invoke s c' arguments result) := by
  have hps := hc.declaration.parameters
  obtain ⟨hframe, hh⟩ := hs.heap.enclose c.frame
    (Machine.bindParameters c.declaration.parameters arguments [])
  simp only [Machine.invoke, hc.frame, bindParameters_eq hps, hframe, hs.frame]
  exact (hs.grow hh rfl).enter .activation (.run hc.declaration.function_body) ..

theorem instantiate (hs : Abreast P more out m m') (cls : Nat) (arguments : List Value)
    (s : Setting) :
    Inside P more out (m.instantiate s cls arguments) (m'.instantiate s cls arguments) := by
  obtain ⟨hobject, hh⟩ := hs.heap.addInstance cls
  simp only [Machine.instantiate, hs.heap.looks.method?, hobject]
  split
  · exact (hs.grow hh hs.frame).yield _
  · next method _ =>
    have hc := hs.heap.closure method
    generalize m.heap.closures[method]? = o at hc ⊢
    generalize m'.heap.closures[method]? = o' at hc ⊢
    cases hc with
    | none => exact hs.fault .absent
    | some hc =>
      obtain ⟨hframe, hh⟩ := hh.encloseReceiver hc (.object (m.heap.addInstance cls).1)
      dsimp only
      rw [hframe]
      exact (hs.grow hh hs.frame).invoke (hc.inFrame _) ..

theorem callValue (hs : Abreast P more out m m') (callee : Value) (arguments : List Value)
    (s : Setting) :
    Inside P more out (m.callValue s callee arguments) (m'.callValue s callee arguments) := by
  cases callee with
  | clock =>
    simp only [Machine.callValue, hs.heap.ticks]
    exact (hs.grow hs.heap.tick hs.frame).yield _
  | cls c => exact hs.instantiate ..
  | closure i =>
    have hc := hs.heap.closure i
    simp only [Machine.callValue]
    generalize m.heap.closures[i]? = o at hc ⊢
    generalize m'.heap.closures[i]? = o' at hc ⊢
    cases hc with
    | none => exact hs.fault .absent
    | some hc =>
      dsimp only
      rw [hc.isInitializer, hc.frame]
      exact hs.invoke hc ..
  | _ => exact hs.fault .absent

theorem call (hs : Abreast P more out m m') (callee : Value) (ht : P.rel t t')
    (arguments : List Value) (s : Setting) :
    Inside P more out (m.call s callee t arguments) (m'.call s callee t' arguments) := by
  unfold Machine.call
  rw [hs.heap.looks.arity?]
  split
  · exact hs.error ht _
  · split
    · have hcalled : Abreast P more out { m with callToken := some t }
          { m' with callToken := some t' } := ⟨hs.heap, hs.stack, hs.frame, hs.printed⟩
      exact hcalled.callValue ..
    · exact hs.error ht _

/-- A call ends: its answer arrives in the frame of the caller. -/
theorem finishCall (hs : Abreast P more out m m') (caller : Nat) (result : CallResult) (v : Value) :
    Inside P more out (m.finishCall caller result v) (m'.finishCall caller result v) := by
  have hback : Abreast P more out { m with frame := caller } { m' with frame := caller } :=
    hs.grow hs.heap rfl
  simp only [Machine.finishCall, hs.heap.frames]
  split
  · exact hback.yield _
  · exact hback.yield _
  · split
    · exact hback.yield _
    · exact hback.fault _

end Abreast

end LoxLang
