import LoxLang.Machine.Interpret

/-!
# The way back

Constructs that move to another frame wait on the stack with the frame to come back to, so the stack
says at every moment which frames will be current again. A step does one of two things to it
(`Machine.step_continues`): it goes on where it is, at most letting one more construct wait, or the
innermost construct is left and its frame comes back first. Only blocks and calls go on in another
frame (`Machine.step_stays`). What waits leads back to the same frame all along
(`Machine.Leads.run`).
-/

namespace LoxLang

/-- Nothing is in hand that could still let a construct wait. -/
def Control.isDone : Control → Bool
  | .value _ | .returning _ | .failing _ => true
  | .eval _ | .exec _ | .run _ => false

/-- A construct that calls once it has got the value that it waits for. -/
def Waiting.isCall : Waiting → Bool
  | callee _ [] | argument _ _ _ [] => true
  | _ => false

theorem Stack.items_of_pop? {stack rest : Stack} (h : stack.pop? = some (w, rest)) :
    stack.items = w :: rest.items := by
  obtain ⟨items, size, hsize⟩ := stack
  cases items with
  | nil => cases h
  | cons w' items => cases h; rfl

namespace Machine

/-- A machine that goes on from another one in the same frame: nothing was left, and at most one
more construct waits, which keeps to the frame as well. -/
inductive Stays (m m' : Machine) : Prop
  | same (hs : m'.stack.items = m.stack.items) (hf : m'.frame = m.frame)
  | awaiting (w : Waiting) (hw : ∀ i, w.frameAfter i = i)
      (hs : m'.stack.items = w :: m.stack.items) (hf : m'.frame = m.frame)

/-- A machine that goes on from another one: nothing was left, at most one more construct waits, and
leaving that one leads back to the same frame. -/
inductive Continues (m m' : Machine) : Prop
  | same (hs : m'.stack.items = m.stack.items) (hf : m'.frame = m.frame)
  | waiting (w : Waiting) (hs : m'.stack.items = w :: m.stack.items)
      (hf : w.frameAfter m'.frame = m.frame)

/-- What the next step calls, if all arguments of a call have been evaluated. -/
def callee? (m : Machine) : Option Value :=
  match m.control, m.stack.items with
  | .value v, .callee _ [] :: _ => some v
  | .value _, .argument v _ _ [] :: _ => some v
  | _, _ => none

theorem Stays.continues {m m' : Machine} (h : m.Stays m') : m.Continues m' := by
  cases h with
  | same hs hf => exact .same hs hf
  | awaiting w hw hs hf => exact .waiting w hs ((hw _).trans hf)

variable (s : Setting) (m : Machine)

/-- Only what waits and the frame matter of the machine to go on from. -/
theorem Stays.of_eq {m m₁ m' : Machine} (h : m₁.Stays m') (hs : m₁.stack = m.stack)
    (hf : m₁.frame = m.frame) : m.Stays m' := by
  cases h with
  | same hs' hf' => exact .same (hs ▸ hs') (hf ▸ hf')
  | awaiting w hw hs' hf' => exact .awaiting w hw (hs ▸ hs') (hf ▸ hf')

/-- Only what waits and the frame matter of the machine to go on from. -/
theorem Continues.of_eq {m m₁ m' : Machine} (h : m₁.Continues m') (hs : m₁.stack = m.stack)
    (hf : m₁.frame = m.frame) : m.Continues m' := by
  cases h with
  | same hs' hf' => exact .same (hs ▸ hs') (hf ▸ hf')
  | waiting w hs' hf' => exact .waiting w (hs ▸ hs') (hf ▸ hf')

theorem continues_enter (w : Waiting) (frame : Nat) (task : Control)
    (hw : w.frameAfter frame = m.frame) : m.Continues (m.enter s w frame task) := by
  unfold enter
  split
  · exact .same rfl rfl
  · exact .waiting w rfl hw

theorem stays_await (w : Waiting) (task : Control) (hw : ∀ i, w.frameAfter i = i) :
    m.Stays (m.await s w task) := by
  unfold await enter
  split
  · exact .same rfl rfl
  · exact .awaiting w hw rfl rfl

theorem stays_read (r : Reference) : m.Stays (m.read r) := by
  unfold read; split <;> split <;> exact .same rfl rfl

theorem stays_assign (r : Reference) (v : Value) : m.Stays (m.assign r v) := by
  unfold assign; split <;> split <;> exact .same rfl rfl

theorem stays_add (left : Value) (operator : Token) (right : Value) :
    m.Stays (m.add left operator right) := by
  unfold add; split <;> exact .same rfl rfl

theorem stays_binary (left : Value) (operator : Token) (right : Value) :
    m.Stays (m.binary left operator right) := by
  unfold binary
  split
  · exact .same rfl rfl
  · exact .same rfl rfl
  · exact stays_add ..
  · split
    · split <;> exact .same rfl rfl
    · exact .same rfl rfl

theorem stays_unary (operator : Token) (v : Value) : m.Stays (m.unary operator v) := by
  unfold unary
  split
  · exact .same rfl rfl
  · split <;> exact .same rfl rfl
  · exact .same rfl rfl

theorem stays_bindMethod (k : Nat) (receiver : Value) :
    m.Stays (m.bindMethod k receiver) := by
  unfold bindMethod; split <;> exact .same rfl rfl

theorem stays_property (object : Nat) (name : Token) :
    m.Stays (m.property object name) := by
  unfold property
  split
  · exact .same rfl rfl
  · split
    · exact .same rfl rfl
    · split
      · exact stays_bindMethod ..
      · exact .same rfl rfl

theorem stays_superMethod (keyword : Reference) (method : Token) :
    m.Stays (m.superMethod keyword method) := by
  unfold superMethod
  split
  · exact .same rfl rfl
  · split
    · exact .same rfl rfl
    · exact .same rfl rfl
    · split
      · exact stays_bindMethod ..
      · exact .same rfl rfl
    · exact .same rfl rfl

theorem stays_declareClass (name : Token) (superclass : Option Nat)
    (methods : List Function) : m.Stays (m.declareClass name superclass methods) := by
  unfold declareClass
  dsimp only
  split <;> exact .same rfl rfl

theorem continues_invoke (c : Closure) (arguments : List Value) (result : CallResult) :
    m.Continues (m.invoke s c arguments result) := by
  refine (continues_enter s { m with heap := _ } (.activation m.frame result) _ _ ?_).of_eq ?_ ?_
    <;> rfl

theorem continues_instantiate (cls : Nat) (arguments : List Value) :
    m.Continues (m.instantiate s cls arguments) := by
  unfold instantiate
  split
  · exact .same rfl rfl
  · split
    · exact .same rfl rfl
    · exact (continues_invoke ..).of_eq rfl rfl

theorem continues_callValue (callee : Value) (arguments : List Value) :
    m.Continues (m.callValue s callee arguments) := by
  unfold callValue
  split
  · exact .same rfl rfl
  · split
    · exact .same rfl rfl
    · exact continues_invoke ..
  · exact continues_instantiate ..
  · exact .same rfl rfl

theorem continues_call (callee : Value) (paren : Token) (arguments : List Value) :
    m.Continues (m.call s callee paren arguments) := by
  unfold call
  split
  · exact .same rfl rfl
  · split
    · exact (continues_callValue ..).of_eq rfl rfl
    · exact .same rfl rfl

theorem continues_evaluateArguments (callee : Value) (paren : Token) (before : List Value)
    (es : List Expr) : m.Continues (m.evaluateArguments s callee paren before es) := by
  cases es with
  | nil => exact continues_call ..
  | cons e es => exact (stays_await _ _ _ _ fun _ => rfl).continues

theorem stays_evaluate (e : Expr) : m.Stays (m.evaluate s e) := by
  cases e with
  | missing | literal | grouping => exact .same rfl rfl
  | super keyword method => exact stays_superMethod ..
  | this keyword => exact stays_read ..
  | «variable» target => exact stays_read ..
  | _ => exact stays_await _ _ _ _ fun _ => rfl

theorem stays_execute (t : Stmt) (ht : ∀ body, t ≠ .block body) : m.Stays (m.execute s t) := by
  cases t with
  | missing | expression | function => exact .same rfl rfl
  | block body => exact absurd rfl (ht body)
  | classDecl name superclass methods =>
    cases superclass with
    | none => rw [execute]; exact stays_declareClass ..
    | some r => exact stays_await _ _ _ _ fun _ => rfl
  | returning keyword value =>
    cases value with
    | none => exact .same rfl rfl
    | some e => exact stays_await _ _ _ _ fun _ => rfl
  | varDecl name value =>
    cases value with
    | none => exact .same rfl rfl
    | some e => exact stays_await _ _ _ _ fun _ => rfl
  | _ => exact stays_await _ _ _ _ fun _ => rfl

theorem continues_execute (t : Stmt) : m.Continues (m.execute s t) := by
  cases t with
  | block body =>
    refine (continues_enter s { m with heap := _ } (.leave m.frame) _ _ ?_).of_eq ?_ ?_ <;> rfl
  | _ => exact (stays_execute _ _ _ fun _ h => by cases h).continues

theorem stays_runAll (ts : List Stmt) : m.Stays (m.runAll s ts) := by
  cases ts with
  | nil => exact .same rfl rfl
  | cons t ts => exact stays_await _ _ _ _ fun _ => rfl

/-! ## Leaving what waits -/

/-- The machine once a construct no longer waits, in the frame that this brings back. -/
def leaving (w : Waiting) : Machine := { m with frame := w.frameAfter m.frame }

/-- The machine that a step goes on from: if the task in hand is done, the innermost construct is
left. -/
def back (m : Machine) : Machine :=
  match m.control.isDone, m.stack.pop? with
  | true, some (w, rest) => { m with stack := rest }.leaving w
  | _, _ => m

theorem stays_finishCall (caller : Nat) (result : CallResult) (v : Value) :
    (m.leaving (.activation caller result)).Stays (m.finishCall caller result v) := by
  cases result with
  | returned | created => exact .same rfl rfl
  | receiver frame =>
    simp only [finishCall]
    split <;> exact .same rfl rfl

theorem stays_receiveReturn (v : Value) (w : Waiting) :
    (m.leaving w).Stays (m.receiveReturn v w) := by
  cases w with
  | activation caller result => exact stays_finishCall ..
  | _ => exact .same rfl rfl

theorem stays_receiveFailure (w : Waiting) :
    (m.leaving w).Stays (m.receiveFailure w) := by
  cases w <;> exact .same rfl rfl

theorem stays_receive (v : Value) (w : Waiting) (hw : w.isCall = false) :
    (m.leaving w).Stays (m.receive s v w) := by
  cases w with
  | assign target => exact stays_assign ..
  | binaryRight => exact stays_await _ _ _ _ fun _ => rfl
  | binary => exact stays_binary ..
  | callee paren es | argument callee paren before es =>
    cases es with
    | nil => cases hw
    | cons e es => exact stays_await _ _ _ _ fun _ => rfl
  | get name =>
    cases v with
    | object i => exact stays_property ..
    | _ => exact .same rfl rfl
  | logical operator right =>
    simp only [receive]
    cases (if operator.kind = .kwOr then v.truthy else !v.truthy) <;> exact .same rfl rfl
  | setObject name value =>
    cases v with
    | object i => exact stays_await _ _ _ _ fun _ => rfl
    | _ => exact .same rfl rfl
  | unary => exact stays_unary ..
  | loopTest condition body =>
    simp only [receive]
    split
    · exact stays_await _ _ _ _ fun _ => rfl
    · exact .same rfl rfl
  | loopBody => exact stays_await _ _ _ _ fun _ => rfl
  | superclass name parent methods =>
    cases v with
    | cls c => rw [receive]; exact (stays_declareClass ..).of_eq rfl rfl
    | _ => exact .same rfl rfl
  | activation caller result => exact stays_finishCall ..
  | setValue | print | returnValue | define | branch | rest | leave => exact .same rfl rfl

theorem continues_receive (v : Value) (w : Waiting) :
    (m.leaving w).Continues (m.receive s v w) := by
  cases w with
  | callee | argument => exact continues_evaluateArguments ..
  | _ => exact (stays_receive _ _ _ _ rfl).continues

/-- What a step can do to the way back. -/
theorem step_continues :
    m.Continues (m.step s) ∨
      ∃ w rest, m.control.isDone = true ∧ m.stack.pop? = some (w, rest) ∧
        ({ m with stack := rest }.leaving w).Continues (m.step s) := by
  unfold step
  split
  · exact .inl (stays_evaluate ..).continues
  · exact .inl (continues_execute ..)
  · exact .inl (stays_runAll ..).continues
  · next hc =>
    split
    · next w rest hpop => exact .inr ⟨w, rest, by rw [hc]; rfl, hpop, continues_receive ..⟩
    · exact .inl (.same rfl rfl)
  · next hc =>
    split
    · next w rest hpop =>
      exact .inr ⟨w, rest, by rw [hc]; rfl, hpop, (stays_receiveReturn ..).continues⟩
    · exact .inl (.same rfl rfl)
  · next hc =>
    split
    · next w rest hpop =>
      exact .inr ⟨w, rest, by rw [hc]; rfl, hpop, (stays_receiveFailure ..).continues⟩
    · exact .inl (.same rfl rfl)

/-- A step that neither executes a block nor calls stays in the frame at hand, or in the one that
leaving a construct brings back. -/
theorem step_stays (hblock : ∀ body, m.control ≠ .exec (.block body)) (hcall : m.callee? = none) :
    m.back.Stays (m.step s) := by
  unfold step
  split
  · next hc => rw [back, hc]; exact stays_evaluate ..
  · next t hc => rw [back, hc]; exact stays_execute _ _ _ fun body ht => hblock body (ht ▸ hc)
  · next hc => rw [back, hc]; exact stays_runAll ..
  · next v hc =>
    rw [back, hc]
    cases hpop : m.stack.pop? with
    | none => exact .same rfl rfl
    | some popped =>
      obtain ⟨w, rest⟩ := popped
      have hw : w.isCall = false := by
        rw [callee?, hc, Stack.items_of_pop? hpop] at hcall
        unfold Waiting.isCall
        split
        · cases hcall
        · cases hcall
        · rfl
      exact stays_receive _ _ _ _ hw
  · next hc =>
    rw [back, hc]
    cases m.stack.pop? with
    | none => exact .same rfl rfl
    | some popped => exact stays_receiveReturn ..
  · next hc =>
    rw [back, hc]
    cases m.stack.pop? with
    | none => exact .same rfl rfl
    | some popped => exact stays_receiveFailure ..

/-! ## Where it leads -/

/-- What waits beyond `base` leads back to a frame, and `base` is still waiting. -/
def Leads (base : List Waiting) (frame : Nat) (m : Machine) : Prop :=
  ∃ above, m.stack.items = above ++ base ∧ above.foldl Waiting.frameAfter m.frame = frame

/-- What was begun with so many constructs waiting is over: no more of them wait, and the task in
hand is done. -/
def isOver (depth : Nat) (m : Machine) : Bool := m.stack.size == depth && m.control.isDone

variable {s m} {m' : Machine} {base : List Waiting} {frame : Nat}

theorem isOver_iff : m.isOver depth = true ↔ m.stack.size = depth ∧ m.control.isDone = true := by
  simp [isOver]

theorem Leads.start : m.Leads m.stack.items m.frame := ⟨[], rfl, rfl⟩

theorem Leads.continues (h : m.Leads base frame) (hm : m.Continues m') : m'.Leads base frame := by
  obtain ⟨above, hs, hf⟩ := h
  cases hm with
  | same hs' hf' => exact ⟨above, hs'.trans hs, by rw [hf', hf]⟩
  | waiting w hs' hf' => exact ⟨w :: above, by rw [hs', hs]; rfl, by rw [List.foldl_cons, hf', hf]⟩

/-- A step stays on the way back, unless what waited before would be left: that is, unless what was
begun is over. -/
theorem Leads.step (h : m.Leads base frame) (hbase : base = [] ∨ m.isOver base.length = false) :
    (m.step s).Leads base frame := by
  obtain hm | ⟨w, rest, hdone, hpop, hm⟩ := m.step_continues s
  · exact h.continues hm
  · obtain ⟨above, hs, hf⟩ := h
    have hitems := Stack.items_of_pop? hpop
    cases above with
    | nil =>
      rw [hs, List.nil_append] at hitems
      have hend : m.isOver base.length = true :=
        isOver_iff.2 ⟨by rw [← m.stack.size_eq, hs]; rfl, hdone⟩
      obtain rfl | hlive := hbase
      · cases hitems
      · rw [hend] at hlive; cases hlive
    | cons w' above =>
      obtain ⟨rfl, hrest⟩ := List.cons.inj (hs.symm.trans hitems)
      refine Leads.continues ?_ hm
      exact ⟨above, hrest.symm, hf⟩

/-- Once what was begun is over, the way back has been gone. -/
theorem Leads.of_isOver (h : m.Leads base frame) (ho : m.isOver base.length = true) :
    m.stack.items = base ∧ m.frame = frame := by
  obtain ⟨above, hs, hf⟩ := h
  have hsize : m.stack.items.length = base.length := by rw [m.stack.size_eq, (isOver_iff.1 ho).1]
  have hnil : above = [] := by
    rw [hs, List.length_append] at hsize
    exact List.eq_nil_of_length_eq_zero (by omega)
  subst hnil
  exact ⟨hs, hf⟩

theorem Leads.run (h : m.Leads base frame) (n : Nat)
    (hbase : base = [] ∨ ∀ k < n, (m.run s k).isOver base.length = false) :
    (m.run s n).Leads base frame := by
  induction n generalizing m with
  | zero => exact h
  | succ n ih =>
    rw [Machine.run]
    split
    · exact h
    · next hlive =>
      refine ih (h.step (hbase.imp_right fun hk => hk 0 (by omega))) (hbase.imp_right ?_)
      intro hk k hkn
      have := hk (k + 1) (by omega)
      rwa [Machine.run, if_neg hlive] at this

theorem leads_nil_iff : m.Leads [] frame ↔ m.homeFrame = frame := by
  constructor
  · rintro ⟨above, hs, rfl⟩
    rw [homeFrame, hs, List.append_nil]
  · exact fun h => ⟨m.stack.items, (List.append_nil _).symm, h⟩

/-- No run changes the frame that is current once everything that waits has been left. -/
theorem homeFrame_run (s : Setting) (n : Nat) (m : Machine) :
    (m.run s n).homeFrame = m.homeFrame :=
  leads_nil_iff.1 ((leads_nil_iff.2 rfl).run n (.inl rfl))

end Machine

end LoxLang
