import LoxLang.Proofs.ClassSteps
import LoxLang.Proofs.WaysBack

/-!
# Turns

What a step can do to the heap, and where it goes on. `Machine.Turn` lists the ways, each with the
events that go with it; that there are no others (`Machine.turn_step`) holds of every machine,
whichever trees it runs. What stays as it is for good is read off this list.
-/

namespace LoxLang

theorem Stack.items_of_pop?_none {stack : Stack} (h : stack.pop? = none) : stack.items = [] := by
  obtain ⟨items, size, hsize⟩ := stack
  cases items with
  | nil => rfl
  | cons w items => cases h

namespace Machine

open Event Heap

/-- The next step binds a method to a receiver: one of an instance when a property of it is
accessed, or one of a superclass to the `this` at hand. -/
inductive Selects (m : Machine) : Nat → Value → Prop where
  | property : m.control = .value (.object object) → m.stack.items = .get name :: items →
    m.heap.instances[object]? = some o → o.fields.get? name.lexeme = none →
    m.heap.method? o.cls name.lexeme = some k → Selects m k (.object object)
  | super : m.control = .eval (.super keyword method) → keyword.hops = some d →
    m.heap.frames.getAt m.frame d "super" = .ok (.cls c) →
    m.heap.frames.getAt m.frame (d - 1) "this" = .ok v →
    m.heap.method? c method.lexeme = some k → Selects m k v

/-- The next step calls a value with some arguments. -/
inductive Calls (m : Machine) : Value → List Value → Prop where
  | plain : m.control = .value v → m.stack.items = .callee paren [] :: items → Calls m v []
  | withArguments : m.control = .value w → m.stack.items = .argument v paren before [] :: items →
    Calls m v (w :: before).reverse

/-- What a step can do: its events, the heap that it leaves and the frame that it goes on in. -/
inductive Turn (m : Machine) : List Event → Heap → Nat → Prop where
  /-- What waited innermost may be left. -/
  | quiet : i = m.frame ∨ (∃ w rest, m.stack.pop? = some (w, rest) ∧ i = w.frameAfter m.frame) →
    Turn m [] m.heap i
  | declare (name : Token) (v : Value) :
    Turn m [declare m.frame name v] (m.heap.define m.frame name.lexeme v) m.frame
  | assign : m.control = .value v → m.stack.items = .assign r :: items →
    Turn m [.stored ⟨j, r.name.lexeme, v, .assignment r⟩] (m.heap.define j r.name.lexeme v) m.frame
  | block : i = m.frame ∨ i = m.size →
    Turn m [.made m.frame (.block body)] (m.heap.enclose m.frame []).2 i
  | function : m.control = .exec (.function f) →
    Turn m [.declare m.frame f.name (.closure m.heap.closures.size)]
      ((m.heap.addClosure ⟨f, m.frame, false⟩).2.define m.frame f.name.lexeme
        (.closure m.heap.closures.size)) m.frame
  | declares : m.Declares name superclass methods →
    Turn m (m.declareClassEvents name superclass methods)
      (m.declareClass name superclass methods).heap m.frame
  | binds {k : Nat} {v : Value} {c : Closure} : m.Selects k v → m.heap.closures[k]? = some c →
    Turn m (binding m.size c v) (m.heap.bind c v).2 m.frame
  | calls {k : Nat} {c : Closure} {as : List Value} :
    m.Calls (.closure k) as → m.heap.arity? (.closure k) = some as.length →
    m.heap.closures[k]? = some c → i = m.frame ∨ i = m.size →
    Turn m (calling m.size c as)
      (m.heap.enclose c.frame (bindParameters c.declaration.parameters as [])).2 i
  | creates {cls : Nat} : m.Calls (.cls cls) as → m.heap.method? cls initName = none →
    Turn m [] (m.heap.addInstance cls).2 m.frame
  | constructs {cls k : Nat} {c : Closure} {as : List Value} :
    m.Calls (.cls cls) as → m.heap.arity? (.cls cls) = some as.length →
    m.heap.method? cls initName = some k → m.heap.closures[k]? = some c →
    i = m.frame ∨ i = m.size + 1 →
    Turn m (binding m.size c (.object m.heap.instances.size) ++
        calling (m.size + 1) { c with frame := m.size } as)
      (((m.heap.addInstance cls).2.encloseReceiver c (.object m.heap.instances.size)).2.enclose
        m.size (bindParameters c.declaration.parameters as [])).2 i
  | asks : m.Calls .clock as → Turn m [] m.heap.tick m.frame
  | sets : m.control = .value v → m.stack.items = .setValue object name :: items →
    Turn m [] (m.heap.setField object name.lexeme v) m.frame

/-! ## Frames that operations go on in -/

section
variable (m : Machine)

theorem frame_enter (s : Setting) (w : Waiting) (i : Nat) (task : Control) :
    (m.enter s w i task).frame = m.frame ∨ (m.enter s w i task).frame = i := by
  unfold enter
  split
  · exact .inl rfl
  · exact .inr rfl

@[simp] theorem frame_await (s : Setting) (w : Waiting) (task : Control) :
    (m.await s w task).frame = m.frame := by
  rcases m.frame_enter s w m.frame task with h | h <;> exact h

@[simp] theorem frame_read (r : Reference) : (m.read r).frame = m.frame := by
  unfold read; split <;> split <;> rfl

@[simp] theorem frame_add (l : Value) (op : Token) (r : Value) :
    (m.add l op r).frame = m.frame := by
  unfold add; split <;> rfl

@[simp] theorem frame_binary (l : Value) (op : Token) (r : Value) :
    (m.binary l op r).frame = m.frame := by
  unfold binary
  split
  · rfl
  · rfl
  · exact frame_add ..
  · split
    · split <;> rfl
    · rfl

@[simp] theorem frame_unary (op : Token) (v : Value) : (m.unary op v).frame = m.frame := by
  unfold unary
  split
  · rfl
  · split <;> rfl
  · rfl

@[simp] theorem frame_finishCall (caller : Nat) (result : CallResult) (v : Value) :
    (m.finishCall caller result v).frame = caller := by
  cases result with
  | returned | created => rfl
  | receiver frame =>
    simp only [finishCall]
    split <;> rfl

@[simp] theorem frame_receiveReturn (v : Value) (w : Waiting) :
    (m.receiveReturn v w).frame = w.frameAfter m.frame := by
  cases w with
  | activation => exact frame_finishCall ..
  | _ => rfl

@[simp] theorem frame_receiveFailure (w : Waiting) :
    (m.receiveFailure w).frame = w.frameAfter m.frame := by
  cases w <;> rfl

@[simp] theorem frame_declareClass (name : Token) (superclass : Option Nat)
    (methods : List Function) : (m.declareClass name superclass methods).frame = m.frame := by
  unfold declareClass
  dsimp only
  split <;> rfl

end

/-! ## Turns of operations -/

theorem heap_declareClass_stack (m : Machine) (stack : Stack) (name : Token)
    (superclass : Option Nat) (methods : List Function) :
    ({ m with stack }.declareClass name superclass methods).heap =
      (m.declareClass name superclass methods).heap := by
  simp only [declareClass]
  split <;> rfl

variable {m : Machine}

theorem Turn.of_eq {m' : Machine} (hh : m'.heap = m.heap) (hf : m'.frame = m.frame) :
    Turn m [] m'.heap m'.frame := by
  rw [hh]
  exact .quiet (.inl hf)

theorem turn_bindMethod (hs : m.Selects k v) (stack : Stack) :
    Turn m (m.bindMethodEvents k v) ({ m with stack }.bindMethod k v).heap
      ({ m with stack }.bindMethod k v).frame := by
  simp only [bindMethod, bindMethodEvents]
  cases hc : m.heap.closures[k]? with
  | none => exact .of_eq rfl rfl
  | some c => exact .binds hs hc

theorem turn_property (hc : m.control = .value (.object object))
    (hi : m.stack.items = .get name :: items) (stack : Stack) :
    Turn m (m.propertyEvents object name) ({ m with stack }.property object name).heap
      ({ m with stack }.property object name).frame := by
  simp only [property, propertyEvents]
  cases ho : m.heap.instances[object]? with
  | none => exact .of_eq rfl rfl
  | some o =>
    dsimp only
    cases hfield : o.fields.get? name.lexeme with
    | some v => exact .of_eq rfl rfl
    | none =>
      dsimp only
      cases hk : m.heap.method? o.cls name.lexeme with
      | none => exact .of_eq rfl rfl
      | some k => exact turn_bindMethod (.property hc hi ho hfield hk) stack

theorem turn_superMethod (hc : m.control = .eval (.super keyword method)) :
    Turn m (m.superMethodEvents keyword method) (m.superMethod keyword method).heap
      (m.superMethod keyword method).frame := by
  simp only [superMethod, superMethodEvents]
  cases hd : keyword.hops with
  | none => exact .of_eq rfl rfl
  | some d =>
    dsimp only
    rcases hsuper : m.heap.frames.getAt m.frame d "super" with f | v
    · exact .of_eq rfl rfl
    rcases hthis : m.heap.frames.getAt m.frame (d - 1) "this" with f | receiver
    · cases v <;> exact .of_eq rfl rfl
    cases v with
    | cls c =>
      dsimp only
      cases hk : m.heap.method? c method.lexeme with
      | none => exact .of_eq rfl rfl
      | some k => exact turn_bindMethod (.super hc hd hsuper hthis hk) m.stack
    | _ => exact .of_eq rfl rfl

theorem turn_assign (hc : m.control = .value v) (hi : m.stack.items = .assign r :: items)
    (stack : Stack) :
    Turn m (m.assignEvents r v) ({ m with stack }.assign r v).heap
      ({ m with stack }.assign r v).frame := by
  simp only [assign, assignEvents]
  cases r.hops with
  | some d =>
    dsimp only
    cases m.heap.frames.frameAt m.frame d with
    | ok j => exact .assign hc hi
    | error => exact .of_eq rfl rfl
  | none =>
    dsimp only
    cases m.heap.frames.holder? Heap.globals r.name.lexeme with
    | some j => exact .assign hc hi
    | none => exact .of_eq rfl rfl

theorem turn_invoke {k : Nat} {c : Closure} (hcalls : m.Calls (.closure k) arguments)
    (harity : m.heap.arity? (.closure k) = some arguments.length)
    (hc : m.heap.closures[k]? = some c) (s : Setting) (result : CallResult) (stack : Stack)
    (callToken : Option Token) :
    Turn m (calling m.size c arguments)
      ({ m with stack, callToken }.invoke s c arguments result).heap
      ({ m with stack, callToken }.invoke s c arguments result).frame := by
  simp only [invoke, heap_enter]
  exact .calls hcalls harity hc (frame_enter ..)

theorem turn_instantiate (hcalls : m.Calls (.cls cls) arguments)
    (harity : m.heap.arity? (.cls cls) = some arguments.length) (s : Setting) (stack : Stack)
    (callToken : Option Token) :
    Turn m (m.instantiateEvents cls arguments)
      ({ m with stack, callToken }.instantiate s cls arguments).heap
      ({ m with stack, callToken }.instantiate s cls arguments).frame := by
  simp only [instantiate, instantiateEvents]
  cases hk : m.heap.method? cls initName with
  | none => exact .creates hcalls hk
  | some k =>
    dsimp only
    cases hc : m.heap.closures[k]? with
    | none => exact .of_eq rfl rfl
    | some c =>
      simp only [invoke, heap_enter]
      refine .constructs hcalls harity hk hc ?_
      have hsize : m.size + 1 = (m.heap.frames.make (some c.frame)
          [("this", .object m.heap.instances.size)]).2.all.size := by
        simp [Frames.make, size]
      rw [hsize]
      exact frame_enter ..

theorem turn_call (hcalls : m.Calls callee arguments) (s : Setting) (paren : Token)
    (stack : Stack) :
    Turn m (m.callEvents callee arguments)
      ({ m with stack }.call s callee paren arguments).heap
      ({ m with stack }.call s callee paren arguments).frame := by
  simp only [call, callEvents]
  cases ha : m.heap.arity? callee with
  | none => exact .of_eq rfl rfl
  | some n =>
    dsimp only
    by_cases hlen : arguments.length = n
    · rw [if_pos hlen, if_pos (by rw [hlen])]
      cases callee with
      | closure k =>
        simp only [callValue, callValueEvents]
        cases hc : m.heap.closures[k]? with
        | none => exact .of_eq rfl rfl
        | some c => exact turn_invoke hcalls (by rw [ha, hlen]) hc ..
      | cls c => exact turn_instantiate hcalls (by rw [ha, hlen]) ..
      | clock => exact .asks hcalls
      | _ => exact .of_eq rfl rfl
    · rw [if_neg hlen, if_neg fun h => hlen (Option.some.inj h).symm]
      exact .of_eq rfl rfl

theorem turn_execute (s : Setting) (hc : m.control = .exec t) :
    Turn m (m.executeEvents t) (m.execute s t).heap (m.execute s t).frame := by
  cases t with
  | classDecl name superclass methods =>
    cases superclass with
    | none =>
      simp only [execute, frame_declareClass]
      exact .declares (.base hc)
    | some parent => exact .of_eq (heap_await ..) (frame_await ..)
  | block body =>
    simp only [execute, heap_enter]
    exact .block (frame_enter ..)
  | function f => exact .function hc
  | varDecl name value =>
    cases value with
    | none => exact .declare name .nil
    | some value => exact .of_eq (heap_await ..) (frame_await ..)
  | returning keyword value =>
    cases value with
    | none => exact .of_eq rfl rfl
    | some value => exact .of_eq (heap_await ..) (frame_await ..)
  | missing | expression => exact .of_eq rfl rfl
  | _ => exact .of_eq (heap_await ..) (frame_await ..)

theorem turn_receive (s : Setting) (hc : m.control = .value v)
    (hpop : m.stack.pop? = some (w, rest)) :
    Turn m (m.receiveEvents v w) ({ m with stack := rest }.receive s v w).heap
      ({ m with stack := rest }.receive s v w).frame := by
  have hi := Stack.items_of_pop? hpop
  cases w with
  | assign target => exact turn_assign hc hi rest
  | callee paren es =>
    cases es with
    | nil => exact turn_call (.plain hc hi) ..
    | cons e es => exact .of_eq (heap_await ..) (frame_await ..)
  | argument callee paren before es =>
    cases es with
    | nil => exact turn_call (.withArguments hc hi) ..
    | cons e es => exact .of_eq (heap_await ..) (frame_await ..)
  | get name =>
    cases v with
    | object i => exact turn_property hc hi rest
    | _ => exact .of_eq rfl rfl
  | superclass name parent methods =>
    cases v with
    | cls c =>
      simp only [receive, frame_declareClass, heap_declareClass_stack]
      exact .declares (.derived hc hi)
    | _ => exact .of_eq rfl rfl
  | setObject name value =>
    cases v with
    | object i => exact .of_eq (heap_await ..) (frame_await ..)
    | _ => exact .of_eq rfl rfl
  | setValue object name => exact .sets hc hi
  | define name => exact .declare name v
  | logical operator right =>
    simp only [receive]
    cases (if operator.kind = .kwOr then v.truthy else !v.truthy) <;> exact .of_eq rfl rfl
  | loopTest condition body =>
    simp only [receive]
    cases v.truthy with
    | true => exact .of_eq (heap_await ..) (frame_await ..)
    | false => exact .of_eq rfl rfl
  | leave outer => exact .quiet (.inr ⟨_, _, hpop, rfl⟩)
  | activation caller result =>
    simp only [receive, heap_finishCall, frame_finishCall]
    exact .quiet (.inr ⟨_, _, hpop, rfl⟩)
  | binary left operator => exact .of_eq (heap_binary ..) (frame_binary ..)
  | unary operator => exact .of_eq (heap_unary ..) (frame_unary ..)
  | print | returnValue | branch | rest => exact .of_eq rfl rfl
  | binaryRight | loopBody => exact .of_eq (heap_await ..) (frame_await ..)

/-- There is nothing else that a step can do. -/
theorem turn_step (s : Setting) (m : Machine) :
    Turn m m.events (m.step s).heap (m.step s).frame := by
  unfold step events
  cases hc : m.control with
  | eval e =>
    cases e with
    | super keyword method => exact turn_superMethod hc
    | this | «variable» => exact .of_eq (heap_read ..) (frame_read ..)
    | missing | literal | grouping => exact .of_eq rfl rfl
    | _ => exact .of_eq (heap_await ..) (frame_await ..)
  | exec t => exact turn_execute s hc
  | run ts =>
    cases ts with
    | nil => exact .of_eq rfl rfl
    | cons t ts => exact .of_eq (heap_await ..) (frame_await ..)
  | value v =>
    cases hpop : m.stack.pop? with
    | none =>
      rw [Stack.items_of_pop?_none hpop]
      exact .of_eq rfl rfl
    | some popped =>
      obtain ⟨w, rest⟩ := popped
      rw [Stack.items_of_pop? hpop]
      exact turn_receive s hc hpop
  | returning v =>
    cases hpop : m.stack.pop? with
    | none => exact .of_eq rfl rfl
    | some popped =>
      simp only [heap_receiveReturn, frame_receiveReturn]
      exact .quiet (.inr ⟨_, _, hpop, rfl⟩)
  | failing f =>
    cases hpop : m.stack.pop? with
    | none => exact .of_eq rfl rfl
    | some popped =>
      simp only [heap_receiveFailure, frame_receiveFailure]
      exact .quiet (.inr ⟨_, _, hpop, rfl⟩)

/-- What binding a method that is selected leaves. -/
theorem Selects.heap_step {c : Closure} (hs : m.Selects k v) (hc : m.heap.closures[k]? = some c)
    (s : Setting) : (m.step s).heap = (m.heap.bind c v).2 := by
  obtain ⟨control, ⟨items, n, rfl⟩, frame, heap, printed, callToken⟩ := m
  cases hs with
  | property hcontrol hitems ho hfield hk =>
    cases hcontrol
    cases hitems
    dsimp only at ho hk hc
    simp only [step, Stack.pop?, receive, Machine.property, ho, hfield, hk, bindMethod, hc]
  | super hcontrol hd hsuper hthis hk =>
    cases hcontrol
    simp only [step, evaluate, superMethod, hd, hsuper, hthis, hk, bindMethod, hc]

end Machine

end LoxLang
