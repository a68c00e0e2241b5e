import LoxLang.Proofs.Calls
import LoxLang.Proofs.History

/-!
# Classes and steps

Only the execution of a class declaration adds a class (`Machine.keeps_step`), and all the methods
of the class are closed over one frame (`Machine.closures_of_declares`, `Machine.hasMethod_step`).
-/

namespace LoxLang

/-- What is stored by neither a declaration nor an assignment is stored once and for all. -/
def Writer.isFixed : Writer → Bool
  | receiver | superclass => true
  | _ => false

/-- A closure of the heap is a method of a class. -/
def Heap.HasMethod (h : Heap) (k : Nat) : Prop :=
  ∃ (i : Nat) (c : Class) (x : String), h.classes[i]? = some c ∧ c.methods.get? x = some k

/-- The closures of one heap are still there in another, which has the same classes. -/
structure Heap.Keeps (h h' : Heap) : Prop where
  closures {i : Nat} {c : Closure} : h.closures[i]? = some c → h'.closures[i]? = some c
  classes : h'.classes = h.classes

namespace Machine

/-- The next step executes a class declaration, the superclass of which, if there is one, has been
evaluated. -/
inductive Declares (m : Machine) : Token → Option Nat → List Function → Prop where
  | base : m.control = .exec (.classDecl name none methods) → Declares m name none methods
  | derived : m.control = .value (.cls c) →
    m.stack.items = .superclass name parent methods :: items → Declares m name (some c) methods

/-- The frame around the methods of a class that is declared now. -/
def methodFrame (m : Machine) : Option Nat → Nat
  | none => m.frame
  | some _ => m.size

end Machine

namespace Heap.Keeps

theorem refl (h : Heap) : Keeps h h := ⟨id, rfl⟩

theorem trans (h₁ : Keeps h h') (h₂ : Keeps h' h'') : Keeps h h'' :=
  ⟨fun hc => h₂.closures (h₁.closures hc), h₂.classes.trans h₁.classes⟩

theorem of_eq (hc : h'.closures = h.closures) (hk : h'.classes = h.classes) : Keeps h h' :=
  ⟨fun h => by rwa [hc], hk⟩

theorem addClosure (h : Heap) (c : Closure) : Keeps h (h.addClosure c).2 where
  closures hc := by
    have hi := (Array.getElem?_eq_some_iff.1 hc).1
    simpa [Heap.addClosure, Array.getElem?_push, Nat.ne_of_lt hi] using hc
  classes := rfl

theorem bind (h : Heap) (c : Closure) (receiver : Value) : Keeps h (h.bind c receiver).2 :=
  (of_eq rfl rfl : Keeps h (h.encloseReceiver c receiver).2).trans (.addClosure ..)

end Heap.Keeps

theorem Heap.hasMethod_of_method? {h : Heap} (hm : h.method? cls x = some k) : h.HasMethod k := by
  obtain ⟨i, c, -, hc, hk⟩ := class_of_method? hm
  exact ⟨i, c, x, hc, hk⟩

namespace Machine

open Event Heap

/-! ## Closures and classes -/

theorem keeps_of_heap_eq {h : Heap} {m : Machine} (e : m.heap = h) : Keeps h m.heap := e ▸ .refl _

theorem keeps_assign (r : Reference) (v : Value) (m : Machine) :
    Keeps m.heap (m.assign r v).heap := by
  unfold assign
  split <;> split <;> exact .of_eq rfl rfl

theorem keeps_bindMethod (method : Nat) (receiver : Value) (m : Machine) :
    Keeps m.heap (m.bindMethod method receiver).heap := by
  unfold bindMethod
  split
  · exact .refl _
  · exact .bind ..

theorem keeps_property (object : Nat) (name : Token) (m : Machine) :
    Keeps m.heap (m.property object name).heap := by
  unfold property
  split
  · exact .refl _
  · split
    · exact .refl _
    · split
      · exact keeps_bindMethod ..
      · exact .refl _

theorem keeps_superMethod (keyword : Reference) (method : Token) (m : Machine) :
    Keeps m.heap (m.superMethod keyword method).heap := by
  unfold superMethod
  split
  · exact .refl _
  · split
    · exact .refl _
    · exact .refl _
    · split
      · exact keeps_bindMethod ..
      · exact .refl _
    · exact .refl _

theorem keeps_invoke (s : Setting) (c : Closure) (arguments : List Value) (result : CallResult)
    (m : Machine) : Keeps m.heap (m.invoke s c arguments result).heap := by
  simp only [invoke, heap_enter]
  exact .of_eq rfl rfl

theorem keeps_instantiate (s : Setting) (cls : Nat) (arguments : List Value) (m : Machine) :
    Keeps m.heap (m.instantiate s cls arguments).heap := by
  unfold instantiate
  split
  · exact .of_eq rfl rfl
  · split
    · exact .refl _
    · next c _ =>
      have hreceiver : Keeps m.heap
          ((m.heap.addInstance cls).2.encloseReceiver c (.object m.heap.instances.size)).2 :=
        .of_eq rfl rfl
      exact hreceiver.trans (keeps_invoke s _ arguments _ { m with heap := _ })

theorem keeps_callValue (s : Setting) (callee : Value) (arguments : List Value) (m : Machine) :
    Keeps m.heap (m.callValue s callee arguments).heap := by
  unfold callValue
  split
  · exact .of_eq rfl rfl
  · split
    · exact .refl _
    · exact keeps_invoke ..
  · exact keeps_instantiate ..
  · exact .refl _

theorem keeps_call (s : Setting) (callee : Value) (paren : Token) (arguments : List Value)
    (m : Machine) : Keeps m.heap (m.call s callee paren arguments).heap := by
  unfold call
  split
  · exact .refl _
  · split
    · exact keeps_callValue s callee arguments { m with callToken := some paren }
    · exact .refl _

theorem keeps_evaluateArguments (s : Setting) (callee : Value) (paren : Token)
    (before : List Value) (es : List Expr) (m : Machine) :
    Keeps m.heap (m.evaluateArguments s callee paren before es).heap := by
  cases es with
  | nil => exact keeps_call ..
  | cons e es => exact keeps_of_heap_eq (heap_await ..)

theorem keeps_evaluate (s : Setting) (e : Expr) (m : Machine) :
    Keeps m.heap (m.evaluate s e).heap := by
  cases e with
  | super keyword method => exact keeps_superMethod ..
  | missing | grouping | literal => exact .refl _
  | _ => exact keeps_of_heap_eq (by simp [evaluate])

theorem keeps_execute (s : Setting) (t : Stmt) (m : Machine)
    (ht : ∀ name methods, t ≠ .classDecl name none methods) :
    Keeps m.heap (m.execute s t).heap := by
  cases t with
  | classDecl name superclass methods =>
    cases superclass with
    | none => exact absurd rfl (ht _ _)
    | some parent => exact keeps_of_heap_eq (heap_await ..)
  | block body =>
    simp only [execute, heap_enter]
    exact .of_eq rfl rfl
  | function f => exact Keeps.trans (.addClosure ..) (.of_eq rfl rfl)
  | varDecl name value =>
    cases value with
    | none => exact .of_eq rfl rfl
    | some value => exact keeps_of_heap_eq (heap_await ..)
  | returning keyword value =>
    cases value with
    | none => exact .refl _
    | some value => exact keeps_of_heap_eq (heap_await ..)
  | missing | expression => exact .refl _
  | _ => exact keeps_of_heap_eq (heap_await ..)

theorem keeps_receive (s : Setting) (v : Value) (w : Waiting) (m : Machine)
    (hw : ∀ c name parent methods, v = .cls c → w ≠ .superclass name parent methods) :
    Keeps m.heap (m.receive s v w).heap := by
  cases w with
  | assign target => exact keeps_assign ..
  | callee | argument => exact keeps_evaluateArguments ..
  | get name =>
    cases v with
    | object i => exact keeps_property ..
    | _ => exact .refl _
  | superclass name parent methods =>
    cases v with
    | cls c => exact absurd rfl (hw c name parent methods rfl)
    | _ => exact .refl _
  | setObject name value =>
    cases v with
    | object i => exact keeps_of_heap_eq (heap_await ..)
    | _ => exact .refl _
  | define | setValue => exact .of_eq rfl rfl
  | logical operator right =>
    simp only [receive]
    cases (if operator.kind = .kwOr then v.truthy else !v.truthy) <;> exact .refl _
  | loopTest condition body =>
    simp only [receive]
    split
    · exact keeps_of_heap_eq (heap_await ..)
    · exact .refl _
  | _ => exact keeps_of_heap_eq (by simp [receive])

/-- Without a class declaration to execute, a step leaves the classes alone. -/
theorem keeps_step (s : Setting) {m : Machine} (hm : ∀ name c ms, ¬m.Declares name c ms) :
    Keeps m.heap (m.step s).heap := by
  obtain ⟨control, ⟨items, n, rfl⟩, frame, heap, printed, callToken⟩ := m
  cases control with
  | eval e => exact keeps_evaluate ..
  | exec t => exact keeps_execute s t _ fun name ms e => hm name none ms (.base (by rw [e]))
  | run ts =>
    cases ts with
    | nil => exact .refl _
    | cons t ts => exact keeps_of_heap_eq (heap_await ..)
  | value v =>
    cases items with
    | nil => exact .refl _
    | cons w items =>
      have hw : ∀ c name parent ms, v = .cls c → w ≠ .superclass name parent ms := by
        rintro c name parent ms rfl rfl
        exact hm name (some c) ms (.derived rfl rfl)
      exact keeps_receive s v w ⟨.value v, ⟨items, _, rfl⟩, frame, heap, printed, callToken⟩ hw
  | returning v =>
    cases items with
    | nil => exact .refl _
    | cons w items => exact keeps_of_heap_eq (heap_receiveReturn ..)
  | failing f =>
    cases items with
    | nil => exact .refl _
    | cons w items => exact keeps_of_heap_eq (heap_receiveFailure ..)

/-- The closures of methods that are added, all over one frame and each under its own name. -/
theorem closures_addMethods (frame : Nat) (fs : List Function) (methods : Bindings Nat) (h : Heap) :
    let added := addMethods frame fs methods h
    Keeps h added.2 ∧ ∀ x k, added.1.get? x = some k → methods.get? x = some k ∨
      h.closures.size ≤ k ∧
        ∃ f ∈ fs, f.name.lexeme = x ∧
          added.2.closures[k]? = some ⟨f, frame, x = Heap.initName⟩ := by
  induction fs generalizing methods h with
  | nil => exact ⟨.refl h, fun x k hk => .inl hk⟩
  | cons f fs ih =>
    let c : Closure := ⟨f, frame, f.name.lexeme = Heap.initName⟩
    obtain ⟨hkeeps, hadded⟩ := ih (methods.insert f.name.lexeme h.closures.size) (h.addClosure c).2
    refine ⟨(Keeps.addClosure h c).trans hkeeps, fun x k hk => ?_⟩
    rcases hadded x k hk with hk | ⟨hnew, g, hg, hadd⟩
    · by_cases hx : x = f.name.lexeme
      · subst hx
        rw [Bindings.get?_insert_self] at hk
        cases hk
        exact .inr ⟨Nat.le_refl _, f, List.mem_cons_self, rfl,
          hkeeps.closures Array.getElem?_push_size⟩
      · rw [Bindings.get?_insert_of_ne hx] at hk
        exact .inl hk
    · have hsize : (h.addClosure c).2.closures.size = h.closures.size + 1 := Array.size_push c
      exact .inr ⟨by omega, g, List.mem_cons_of_mem _ hg, hadd⟩

/-- The closures of methods that are added come behind all others, in order. -/
theorem toList_closures_addMethods (frame : Nat) (fs : List Function) (methods : Bindings Nat)
    (h : Heap) :
    (addMethods frame fs methods h).2.closures.toList =
      h.closures.toList ++ fs.map fun f => ⟨f, frame, f.name.lexeme = Heap.initName⟩ := by
  induction fs generalizing methods h with
  | nil => exact (List.append_nil _).symm
  | cons f fs ih =>
    rw [addMethods, ih, List.map_cons, List.append_cons]
    simp only [Heap.addClosure, Array.toList_push]

/-- A class that is declared comes behind all others, with its methods over one frame. -/
theorem heap_declareClass (name : Token) (superclass : Option Nat) (methods : List Function)
    (m : Machine) :
    ∃ h : Heap, h.closures = m.heap.closures ∧
      let added := addMethods (m.methodFrame superclass) methods [] h
      (m.declareClass name superclass methods).heap.closures = added.2.closures ∧
      (m.declareClass name superclass methods).heap.classes =
        m.heap.classes.push ⟨name.lexeme, superclass, added.1⟩ := by
  cases superclass with
  | none =>
    refine ⟨m.heap.define m.frame name.lexeme .nil, rfl, ?_⟩
    simp only [declareClass]
    split <;> exact ⟨rfl, congrArg (Array.push · _) (classes_addMethods ..)⟩
  | some c =>
    have hsize : m.size = (m.heap.define m.frame name.lexeme .nil).frames.all.size := by
      simp [size, Heap.define, Frames.define]
    refine ⟨((m.heap.define m.frame name.lexeme .nil).enclose m.frame [("super", .cls c)]).2,
      rfl, ?_⟩
    simp only [declareClass, methodFrame, hsize]
    split <;> exact ⟨rfl, congrArg (Array.push · _) (classes_addMethods ..)⟩

/-- The methods that there are once a class is declared: those there were, and those of the class.
-/
theorem hasMethod_declareClass (name : Token) (superclass : Option Nat) (methods : List Function)
    (m : Machine) :
    let h' := (m.declareClass name superclass methods).heap
    (∀ {i : Nat} {c : Closure}, m.heap.closures[i]? = some c → h'.closures[i]? = some c) ∧
      ∀ k, h'.HasMethod k → m.heap.HasMethod k ∨ m.heap.closures.size ≤ k ∧
        ∃ f ∈ methods, ∃ b, h'.closures[k]? = some ⟨f, m.methodFrame superclass, b⟩ := by
  obtain ⟨h, hold, hclosures, hclasses⟩ := heap_declareClass name superclass methods m
  obtain ⟨hadded, hmethods⟩ :=
    closures_addMethods (m.methodFrame superclass) methods [] h
  refine ⟨fun hc => ?_, ?_⟩
  · rw [hclosures]
    exact hadded.closures (hold ▸ hc)
  · rintro k ⟨i, c, x, hc, hk⟩
    rw [hclasses, Array.getElem?_push] at hc
    split at hc
    · cases hc
      obtain ⟨hnew, f, hf, -, hclosure⟩ := (hmethods x k hk).resolve_left nofun
      rw [hclosures]
      exact .inr ⟨hold ▸ hnew, f, hf, _, hclosure⟩
    · exact .inl ⟨i, c, x, hc, hk⟩

variable {m : Machine}

theorem step_of_declares (h : m.Declares name superclass methods) (s : Setting) :
    ∃ stack, m.step s = { m with stack }.declareClass name superclass methods := by
  obtain ⟨control, ⟨items, n, rfl⟩, frame, heap, printed, callToken⟩ := m
  cases h with
  | base hc => exact ⟨_, by rw [step, show control = _ from hc]; rfl⟩
  | derived hc hs =>
    cases hs
    cases hc
    exact ⟨_, rfl⟩

/-- The closures that a class declaration makes: those of its methods, in order. -/
theorem closures_of_declares (h : m.Declares name superclass methods) (s : Setting) (i : Nat) :
    (m.step s).heap.closures[m.heap.closures.size + i]? =
      methods[i]?.map fun f => ⟨f, m.methodFrame superclass, f.name.lexeme = Heap.initName⟩ := by
  obtain ⟨stack, hstep⟩ := step_of_declares h s
  obtain ⟨heap, hold, hclosures, -⟩ :=
    heap_declareClass name superclass methods { m with stack }
  have hframe : { m with stack }.methodFrame superclass = m.methodFrame superclass := by
    cases superclass <;> rfl
  rw [hstep, hclosures, ← Array.getElem?_toList, toList_closures_addMethods, hold, hframe,
    List.getElem?_append_right (by simp), List.getElem?_map]
  simp

theorem events_of_declares (h : m.Declares name superclass methods) :
    m.events = m.declareClassEvents name superclass methods := by
  obtain ⟨control, ⟨items, n, rfl⟩, frame, heap, printed, callToken⟩ := m
  cases h with
  | base hc => rw [events, show control = _ from hc]; rfl
  | derived hc hs =>
    cases hs
    cases hc
    rfl

/-- The methods that there are after a step: those there were, and those of a class that the step
declares. -/
theorem hasMethod_step (s : Setting) (m : Machine) :
    (∀ {i : Nat} {c : Closure}, m.heap.closures[i]? = some c →
        (m.step s).heap.closures[i]? = some c) ∧
      ∀ k, (m.step s).heap.HasMethod k → m.heap.HasMethod k ∨
        ∃ name superclass methods, m.Declares name superclass methods ∧
          m.heap.closures.size ≤ k ∧ ∃ f ∈ methods, ∃ b,
            (m.step s).heap.closures[k]? = some ⟨f, m.methodFrame superclass, b⟩ := by
  by_cases hd : ∃ name superclass methods, m.Declares name superclass methods
  · obtain ⟨name, superclass, methods, hd⟩ := hd
    obtain ⟨stack, hstep⟩ := step_of_declares hd s
    obtain ⟨hclosures, hmethods⟩ :=
      hasMethod_declareClass name superclass methods { m with stack }
    rw [hstep]
    refine ⟨hclosures, fun k hk => (hmethods k hk).imp_right fun h => ?_⟩
    exact ⟨name, superclass, methods, hd, by cases superclass <;> exact h⟩
  · have hkeeps := keeps_step s (m := m) fun name c ms h => hd ⟨name, c, ms, h⟩
    refine ⟨hkeeps.closures, ?_⟩
    rintro k ⟨i, c, x, hc, hk⟩
    exact .inl ⟨i, c, x, hkeeps.classes ▸ hc, hk⟩

end Machine

end LoxLang
