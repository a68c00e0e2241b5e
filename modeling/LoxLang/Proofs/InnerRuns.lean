import LoxLang.Proofs.DepthLimits

/-!
# Tasks within others

What waits further out has no part in how a task is done: with more constructs waiting beneath all
others, and as many more allowed, every step is the same (`within_step`), until the task is over and
the first of those constructs is reached (`exists_run_within`).
-/

namespace LoxLang

/-- So many constructs more may wait at once. -/
def Setting.deeper (s : Setting) (k : Nat) : Setting := ⟨s.depth + k, s.clock⟩

/-- More constructs that wait beneath all others. -/
def Stack.within (outer : List Waiting) (s : Stack) : Stack :=
  ⟨s.items ++ outer, s.size + outer.length, by rw [List.length_append, s.size_eq]⟩

theorem Stack.pop?_within {stack rest : Stack} (h : stack.pop? = some (w, rest))
    (outer : List Waiting) : (stack.within outer).pop? = some (w, rest.within outer) := by
  obtain ⟨items, _, rfl⟩ := stack
  cases items with
  | nil => cases h
  | cons w' items =>
    cases h
    simp only [within, List.cons_append, pop?, Option.some.injEq, Prod.mk.injEq, Stack.mk.injEq,
      List.length_cons, true_and]
    omega

namespace Machine

/-- A machine whose task is part of something further out. -/
def within (outer : List Waiting) (m : Machine) : Machine :=
  { m with stack := m.stack.within outer }

variable {outer : List Waiting} {s : Setting} {m : Machine}

theorem heap_within : (m.within outer).heap = m.heap := rfl

/-! ## Steps -/

theorem within_enter (w : Waiting) (frame : Nat) (task : Control) :
    (m.within outer).enter (s.deeper outer.length) w frame task =
      (m.enter s w frame task).within outer := by
  unfold enter
  simp only [within, Stack.within, Setting.deeper, Nat.add_le_add_iff_right]
  split
  · rfl
  · simp [Stack.push, Nat.add_right_comm]

theorem within_await (w : Waiting) (task : Control) :
    (m.within outer).await (s.deeper outer.length) w task = (m.await s w task).within outer :=
  within_enter w m.frame task

theorem within_read (r : Reference) : (m.within outer).read r = (m.read r).within outer := by
  simp only [read, within]
  split <;> split <;> rfl

theorem within_assign (r : Reference) (v : Value) :
    (m.within outer).assign r v = (m.assign r v).within outer := by
  simp only [assign, within]
  split <;> split <;> rfl

theorem within_add (left : Value) (operator : Token) (right : Value) :
    (m.within outer).add left operator right = (m.add left operator right).within outer := by
  simp only [add, within]
  split <;> rfl

theorem within_binary (left : Value) (operator : Token) (right : Value) :
    (m.within outer).binary left operator right =
      (m.binary left operator right).within outer := by
  unfold binary
  split
  · rfl
  · rfl
  · exact within_add ..
  · split
    · split <;> rfl
    · rfl

theorem within_unary (operator : Token) (v : Value) :
    (m.within outer).unary operator v = (m.unary operator v).within outer := by
  unfold unary
  split
  · rfl
  · split <;> rfl
  · rfl

theorem within_bindMethod (k : Nat) (receiver : Value) :
    (m.within outer).bindMethod k receiver = (m.bindMethod k receiver).within outer := by
  simp only [bindMethod, within]
  split <;> rfl

theorem within_property (object : Nat) (name : Token) :
    (m.within outer).property object name = (m.property object name).within outer := by
  unfold property
  simp only [within]
  split
  · rfl
  · split
    · rfl
    · split
      · exact within_bindMethod ..
      · rfl

theorem within_superMethod (keyword : Reference) (method : Token) :
    (m.within outer).superMethod keyword method =
      (m.superMethod keyword method).within outer := by
  unfold superMethod
  simp only [within]
  split
  · rfl
  · split
    · rfl
    · rfl
    · split
      · exact within_bindMethod ..
      · rfl
    · rfl

theorem within_declareClass (name : Token) (superclass : Option Nat) (methods : List Function) :
    (m.within outer).declareClass name superclass methods =
      (m.declareClass name superclass methods).within outer := by
  unfold declareClass
  simp only [within]
  split <;> rfl

theorem within_invoke (c : Closure) (arguments : List Value) (result : CallResult) :
    (m.within outer).invoke (s.deeper outer.length) c arguments result =
      (m.invoke s c arguments result).within outer :=
  within_enter (m := { m with heap := (m.heap.enclose c.frame
    (bindParameters c.declaration.parameters arguments [])).2 }) ..

theorem within_instantiate (cls : Nat) (arguments : List Value) :
    (m.within outer).instantiate (s.deeper outer.length) cls arguments =
      (m.instantiate s cls arguments).within outer := by
  unfold instantiate
  rw [heap_within]
  cases m.heap.method? cls Heap.initName with
  | none => rfl
  | some method =>
    dsimp only
    cases m.heap.closures[method]? with
    | none => rfl
    | some c =>
      exact within_invoke (m := { m with heap := ((m.heap.addInstance cls).2.encloseReceiver c
        (.object (m.heap.addInstance cls).1)).2 }) ..

theorem within_callValue (callee : Value) (arguments : List Value) :
    (m.within outer).callValue (s.deeper outer.length) callee arguments =
      (m.callValue s callee arguments).within outer := by
  cases callee with
  | closure i =>
    simp only [callValue, within]
    split
    · rfl
    · exact within_invoke ..
  | cls c => exact within_instantiate ..
  | _ => rfl

theorem within_call (callee : Value) (paren : Token) (arguments : List Value) :
    (m.within outer).call (s.deeper outer.length) callee paren arguments =
      (m.call s callee paren arguments).within outer := by
  unfold call
  rw [heap_within]
  cases m.heap.arity? callee with
  | none => rfl
  | some n =>
    dsimp only
    split
    · exact within_callValue (m := { m with callToken := some paren }) ..
    · rfl

theorem within_finishCall (caller : Nat) (result : CallResult) (v : Value) :
    (m.within outer).finishCall caller result v =
      (m.finishCall caller result v).within outer := by
  cases result with
  | returned | created => rfl
  | receiver frame =>
    simp only [finishCall, within]
    split <;> rfl

theorem within_evaluateArguments (callee : Value) (paren : Token) (before : List Value)
    (es : List Expr) :
    (m.within outer).evaluateArguments (s.deeper outer.length) callee paren before es =
      (m.evaluateArguments s callee paren before es).within outer := by
  cases es with
  | nil => exact within_call ..
  | cons e es => exact within_await ..

theorem within_evaluate (e : Expr) :
    (m.within outer).evaluate (s.deeper outer.length) e = (m.evaluate s e).within outer := by
  cases e with
  | missing | literal | grouping => rfl
  | super keyword method => exact within_superMethod ..
  | this keyword => exact within_read ..
  | «variable» target => exact within_read ..
  | _ => exact within_await ..

theorem within_execute (t : Stmt) :
    (m.within outer).execute (s.deeper outer.length) t = (m.execute s t).within outer := by
  cases t with
  | missing | expression | function => rfl
  | block body => exact within_enter (m := { m with heap := (m.heap.enclose m.frame []).2 }) ..
  | classDecl name superclass methods =>
    cases superclass with
    | none =>
      simp only [execute]
      exact within_declareClass ..
    | some r => exact within_await ..
  | returning keyword value =>
    cases value with
    | none => rfl
    | some e => exact within_await ..
  | varDecl name value =>
    cases value with
    | none => rfl
    | some e => exact within_await ..
  | _ => exact within_await ..

theorem within_runAll (ts : List Stmt) :
    (m.within outer).runAll (s.deeper outer.length) ts = (m.runAll s ts).within outer := by
  cases ts with
  | nil => rfl
  | cons t ts => exact within_await ..

theorem within_receive (v : Value) (w : Waiting) :
    (m.within outer).receive (s.deeper outer.length) v w = (m.receive s v w).within outer := by
  cases w with
  | print | setValue | returnValue | define | branch | rest | leave => rfl
  | assign => exact within_assign ..
  | binaryRight | loopBody => exact within_await ..
  | binary => exact within_binary ..
  | callee => exact within_evaluateArguments ..
  | argument => exact within_evaluateArguments ..
  | get name =>
    cases v with
    | object i =>
      simp only [receive]
      exact within_property ..
    | _ => rfl
  | logical operator right =>
    simp only [receive]
    split <;> split <;> rfl
  | setObject name value =>
    cases v with
    | object i =>
      simp only [receive]
      exact within_await ..
    | _ => rfl
  | unary =>
    simp only [receive]
    exact within_unary ..
  | loopTest condition body =>
    simp only [receive]
    split
    · exact within_await ..
    · rfl
  | superclass name parent methods =>
    cases v with
    | cls c =>
      simp only [receive]
      exact within_declareClass ..
    | _ => rfl
  | activation caller result =>
    simp only [receive]
    exact within_finishCall ..

theorem within_receiveReturn (v : Value) (w : Waiting) :
    (m.within outer).receiveReturn v w = (m.receiveReturn v w).within outer := by
  cases w with
  | activation caller result => exact within_finishCall ..
  | _ => rfl

theorem within_receiveFailure (w : Waiting) :
    (m.within outer).receiveFailure w = (m.receiveFailure w).within outer := by
  cases w <;> rfl

/-- A step of a task that is not over. -/
theorem within_step (h : m.isOver 0 = false) :
    (m.within outer).step (s.deeper outer.length) = (m.step s).within outer := by
  obtain ⟨control, stack, frame, heap, printed, callToken⟩ := m
  have hpop (hdone : control.isDone = true) : ∃ w rest, stack.pop? = some (w, rest) := by
    obtain ⟨_ | ⟨w, items⟩, _, rfl⟩ := stack
    · exact absurd (isOver_iff.2 ⟨rfl, hdone⟩) (Bool.eq_false_iff.1 h)
    · exact ⟨w, _, rfl⟩
  cases control with
  | eval e => exact within_evaluate ..
  | exec t => exact within_execute ..
  | run ts => exact within_runAll ..
  | value v =>
    obtain ⟨w, rest, hp⟩ := hpop rfl
    simp only [step, within, hp, Stack.pop?_within hp]
    exact within_receive (m := ⟨.value v, rest, frame, heap, printed, callToken⟩) v w
  | returning v =>
    obtain ⟨w, rest, hp⟩ := hpop rfl
    simp only [step, within, hp, Stack.pop?_within hp]
    exact within_receiveReturn (m := ⟨.returning v, rest, frame, heap, printed, callToken⟩) v w
  | failing f =>
    obtain ⟨w, rest, hp⟩ := hpop rfl
    simp only [step, within, hp, Stack.pop?_within hp]
    exact within_receiveFailure (m := ⟨.failing f, rest, frame, heap, printed, callToken⟩) w

/-! ## Runs -/

/-- A task that is over without having halted is a `return` that nothing waits for. -/
theorem step_of_isOver (h : m.isOver 0 = true) (hh : m.halted = false) :
    (m.step s).control = .failing (.fault .strayReturn) := by
  obtain ⟨hsize, hdone⟩ := isOver_iff.1 h
  obtain ⟨control, ⟨_ | ⟨w, items⟩, _, rfl⟩, frame, heap, printed, callToken⟩ := m
  · cases control with
    | returning v => rfl
    | value | failing => cases hh
    | eval | exec | run => cases hdone
  · cases hsize

/-- A task is done within others as it is by itself. -/
theorem exists_run_within (houter : outer ≠ []) (n : Nat)
    (h : (m.run s n).control ≠ .failing (.fault .strayReturn)) :
    ∃ k ≤ n, (m.within outer).run (s.deeper outer.length) k = (m.run s n).within outer := by
  induction n generalizing m with
  | zero => exact ⟨0, Nat.le_refl 0, rfl⟩
  | succ n ih =>
    rw [run] at h ⊢
    cases hh : m.halted with
    | true => exact ⟨0, Nat.zero_le _, rfl⟩
    | false =>
      simp only [hh, Bool.false_eq_true, ↓reduceIte] at h ⊢
      cases ho : m.isOver 0 with
      | true => exact absurd (run_of_failing (step_of_isOver ho hh) s n).1 h
      | false =>
        obtain ⟨k, hk, hrun⟩ := ih h
        have hgoes : (m.within outer).halted = false := by
          have hitems : (m.within outer).stack.items ≠ [] := by simp [within, Stack.within, houter]
          unfold halted
          split <;> first | rfl | contradiction
        refine ⟨k + 1, Nat.succ_le_succ hk, ?_⟩
        rw [run, hgoes, if_neg Bool.false_ne_true, within_step ho, hrun]

end Machine

/-! ## Printing -/

theorem Machine.failing_of_ending {m : Machine} (h : m.ending = .failed f) :
    m.stack.items = [] ∧ m.control = .failing f := by
  unfold ending at h
  split at h
  · cases h
  · next hitems hcontrol => cases h; exact ⟨hitems, hcontrol⟩
  · cases h

namespace Memory

variable {mem : Memory} {s : Setting}

/-- A statement that prints evaluates its expression within, and has three steps left at least. -/
theorem exists_run_print {e : Expr} (h : ((mem.start (.eval e)).run s n).control = c)
    (hc : c ≠ .failing (.fault .strayReturn)) :
    ∃ j, (mem.start (.run [.print e])).run (s.deeper 2) (n + 5) =
      (((mem.start (.eval e)).run s n).within [.print, .rest []]).run (s.deeper 2) (3 + j) := by
  have hstart : (mem.start (.run [.print e])).run (s.deeper 2) 2 =
      (mem.start (.eval e)).within [.print, .rest []] := rfl
  obtain ⟨k, hk, hrun⟩ := Machine.exists_run_within (List.cons_ne_nil .print [.rest []]) n (h ▸ hc)
  change _ = Machine.within [.print, .rest []] _ at hrun
  refine ⟨n - k, ?_⟩
  rw [← hrun, ← hstart]
  change _ = Machine.run (s.deeper 2) _ (Machine.run (s.deeper 2) k _)
  rw [← Machine.run_add, ← Machine.run_add]
  congr 1
  omega

/-- To print the value of an expression takes five steps more than to evaluate it, with room for two
constructs more to wait. -/
theorem interpret_print_of_value {e : Expr} (h : (mem.evaluate s n e).ending = .value v) :
    let r := mem.evaluate s n e
    mem.interpret (s.deeper 2) (n + 5) [.print e] =
      ⟨.value .nil, r.printed.push (r.memory.heap.text v), r.memory⟩ := by
  obtain ⟨hitems, hcontrol⟩ := Machine.value_of_ending h
  obtain ⟨j, hrun⟩ := exists_run_print hcontrol nofun
  simp only [interpret, evaluate, perform, hrun]
  generalize (mem.start (.eval e)).run s n = m at hitems hcontrol ⊢
  obtain ⟨control, stack, frame, heap, printed, callToken⟩ := m
  obtain rfl := Stack.eq_empty hitems
  cases hcontrol
  have hprint : (Machine.within [.print, .rest []]
      ⟨.value v, .empty, frame, heap, printed, callToken⟩).run (s.deeper 2) 3 =
        ⟨.value .nil, .empty, frame, heap, printed.push (heap.text v), callToken⟩ := rfl
  rw [Machine.run_add, hprint, Machine.run_of_halted rfl]
  rfl

theorem interpret_print_of_error {e : Expr}
    (h : (mem.evaluate s n e).ending = .failed (.error token error)) :
    mem.interpret (s.deeper 2) (n + 5) [.print e] = mem.evaluate s n e := by
  obtain ⟨hitems, hcontrol⟩ := Machine.failing_of_ending h
  obtain ⟨j, hrun⟩ := exists_run_print hcontrol nofun
  simp only [interpret, evaluate, perform, hrun]
  generalize (mem.start (.eval e)).run s n = m at hitems hcontrol ⊢
  obtain ⟨control, stack, frame, heap, printed, callToken⟩ := m
  obtain rfl := Stack.eq_empty hitems
  cases hcontrol
  have hleave : (Machine.within [.print, .rest []]
      ⟨.failing (.error token error), .empty, frame, heap, printed, callToken⟩).run (s.deeper 2) 3 =
        ⟨.failing (.error token error), .empty, frame, heap, printed, callToken⟩ := rfl
  rw [Machine.run_add, hleave, Machine.run_of_halted rfl]

end Memory

end LoxLang
