import LoxLang.Proofs.LastingStructure

/-!
# The course of a task

A `Course` is made of the machines that are met from the one that begins a task to the first one in
which it is over. What is begun while more constructs wait is over before it, so a course has the
courses of its parts in it, one after the other (`Course.inner`); between them only constructs that
wait are put on the stack and taken from it. A `return` or a failure passes by all that waits up to
the innermost call.
-/

namespace LoxLang

namespace Stack

/-- Lets constructs wait, the first one innermost. -/
def pushAll (ws : List Waiting) (s : Stack) : Stack := ws.foldr push s

variable (ws : List Waiting) (s : Stack)

@[simp] theorem pushAll_nil : s.pushAll [] = s := rfl

@[simp] theorem pushAll_cons (w : Waiting) : s.pushAll (w :: ws) = (s.pushAll ws).push w := rfl

@[simp] theorem items_push (w : Waiting) : (s.push w).items = w :: s.items := rfl

@[simp] theorem size_push (w : Waiting) : (s.push w).size = s.size + 1 := rfl

@[simp] theorem items_pushAll : (s.pushAll ws).items = ws ++ s.items := by
  induction ws with
  | nil => rfl
  | cons w ws ih => rw [pushAll_cons, items_push, ih, List.cons_append]

@[simp] theorem size_pushAll : (s.pushAll ws).size = ws.length + s.size := by
  rw [← size_eq, items_pushAll, List.length_append, s.size_eq]

/-- A stack is what waits on it. -/
theorem ext_items {s s' : Stack} (h : s.items = s'.items) : s = s' := by
  obtain ⟨items, _, rfl⟩ := s
  obtain ⟨items', _, rfl⟩ := s'
  cases h
  rfl

end Stack

namespace Machine

/-- The machines that are met from `m` on, until what was begun with so many constructs waiting is
over. -/
inductive Course (s : Setting) (depth : Nat) (m : Machine) : Machine → Prop where
  | refl : Course s depth m m
  | step : Course s depth m m' → m'.isOver depth = false → Course s depth m (m'.step s)

/-- The task in hand is over in `m'`, for the first time. -/
def Finishes (s : Setting) (m m' : Machine) : Prop :=
  Course s m.stack.size m m' ∧ m'.isOver m.stack.size = true

variable {s : Setting} {depth : Nat} {m a b c : Machine}

theorem isOver_of_ne (h : m.stack.size ≠ depth) : m.isOver depth = false := by
  simp [isOver, h]

theorem isOver_of_not_isDone (h : m.control.isDone = false) : m.isOver depth = false := by
  simp [isOver, h]

namespace Course

theorem trans (h₁ : Course s depth a b) (h₂ : Course s depth b c) : Course s depth a c := by
  induction h₂ with
  | refl => exact h₁
  | step _ ho ih => exact ih.step ho

/-- A course goes on with its first step, unless it is over at once. -/
theorem head (h : Course s depth a b) :
    a = b ∨ a.isOver depth = false ∧ Course s depth (a.step s) b := by
  induction h with
  | refl => exact .inl rfl
  | step _ ho ih =>
    rcases ih with rfl | ⟨ha, h⟩
    · exact .inr ⟨ho, .refl⟩
    · exact .inr ⟨ha, h.step ho⟩

theorem of_step (ho : a.isOver depth = false) (h : Course s depth (a.step s) b) :
    Course s depth a b :=
  (Course.refl.step ho).trans h

/-- What is so at the end of a course, and so before every step behind which it is so, is so at the
beginning. -/
theorem head_induction {P : Machine → Prop} (h : Course s depth a b) (last : P b)
    (first : ∀ x, x.isOver depth = false → Course s depth (x.step s) b → P (x.step s) → P x) :
    P a := by
  induction h with
  | refl => exact last
  | step _ ho ih =>
    exact ih (first _ ho .refl last) fun x hx h hP => first x hx (h.step ho) hP

theorem eq_of_isOver (h : Course s depth a b) (ho : a.isOver depth = true) : a = b := by
  rcases h.head with heq | ⟨hlive, -⟩
  · exact heq
  · rw [ho] at hlive
    cases hlive

/-- Of a course that is over, whatever is met on the way has the rest to come. -/
theorem rest (ha : Course s depth m a) (hb : Course s depth m b) (ho : b.isOver depth = true) :
    Course s depth a b := by
  induction ha with
  | refl => exact hb
  | step _ hlive ih =>
    rcases ih.head with rfl | ⟨-, h⟩
    · rw [ho] at hlive
      cases hlive
    · exact h

theorem unique (ha : Course s depth m a) (hb : Course s depth m b) (ho : a.isOver depth = true)
    (ho' : b.isOver depth = true) : a = b :=
  (ha.rest hb ho').eq_of_isOver ho

theorem later (h : Course s depth a b) {P : Control → Prop} : Later P a b := by
  induction h with
  | refl => exact .refl
  | step _ _ ih => exact .step s ih

theorem lastsIn (h : Course s depth a b) : a.heap.LastsIn b.heap :=
  (h.later (P := fun _ => True)).lastsIn

theorem leads (h : Course s m.stack.size m a) : a.Leads m.stack.items m.frame := by
  induction h with
  | refl => exact .start
  | step _ ho ih =>
    rw [← m.stack.size_eq] at ho
    exact ih.step (.inr ho)

theorem size_le (h : Course s m.stack.size m a) : m.stack.size ≤ a.stack.size := by
  obtain ⟨above, hs, -⟩ := h.leads
  rw [← m.stack.size_eq, ← a.stack.size_eq, hs, List.length_append]
  exact Nat.le_add_left ..

/-- The course of a part is in the course of the whole. -/
theorem outer (h : Course s a.stack.size a b) (hd : depth < a.stack.size) :
    Course s depth a b := by
  induction h with
  | refl => exact .refl
  | step h _ ih => exact ih.step (isOver_of_ne (Nat.ne_of_gt (Nat.lt_of_lt_of_le hd h.size_le)))

/-- In the course of the whole, a part goes on or is over. -/
theorem inner (h : Course s depth a c) :
    Course s a.stack.size a c ∨ ∃ b, a.Finishes s b ∧ Course s depth b c := by
  induction h with
  | refl => exact .inl .refl
  | @step m' _ hlive ih =>
    rcases ih with hpart | ⟨b, hb, h⟩
    · cases ho : m'.isOver a.stack.size with
      | true => exact .inr ⟨m', ⟨hpart, ho⟩, Course.refl.step hlive⟩
      | false => exact .inl (hpart.step ho)
    · exact .inr ⟨b, hb, h.step hlive⟩

/-- When the whole is over, so is a part. -/
theorem exists_finishes (h : Course s depth a c) (ho : c.isOver depth = true)
    (hd : depth < a.stack.size) : ∃ b, a.Finishes s b ∧ Course s depth b c := by
  refine h.inner.resolve_left fun hpart => ?_
  have hsize := (isOver_iff.1 ho).1
  exact absurd hpart.size_le (by omega)

end Course

namespace Finishes

theorem unique (ha : m.Finishes s a) (hb : m.Finishes s b) : a = b :=
  ha.1.unique hb.1 ha.2 hb.2

/-- At the end of a task the same constructs wait as at its beginning, in the same frame. -/
theorem back (h : m.Finishes s a) : a.stack = m.stack ∧ a.frame = m.frame := by
  have ho := h.2
  rw [← m.stack.size_eq] at ho
  obtain ⟨hitems, hframe⟩ := h.1.leads.of_isOver ho
  exact ⟨Stack.ext_items hitems, hframe⟩

theorem isDone (h : m.Finishes s a) : a.control.isDone = true := (isOver_iff.1 h.2).2

end Finishes

theorem isOver_pushAll {base : Stack} (hs : m.stack = base.pushAll (w :: ws)) :
    m.isOver base.size = false := by
  refine isOver_of_ne ?_
  rw [hs, Stack.size_pushAll, List.length_cons]
  omega

/-- One step of a machine that is done, with something waiting. -/
theorem step_value (hc : m.control = .value v) (hs : m.stack = rest.push w) :
    m.step s = { m with stack := rest }.receive s v w := by
  simp only [step, hc, hs, Stack.pop?_push]

/-- A `return` or a failure passes by what waits, unless it is a call. -/
theorem course_leaving (hc : m.control.isDone = true) (hv : ∀ v, m.control ≠ .value v)
    (hs : m.stack = base.pushAll ws)
    (hws : ∀ caller result, .activation caller result ∉ ws) :
    Course s base.size m
      { m with stack := base, frame := ws.foldl Waiting.frameAfter m.frame } := by
  induction ws generalizing m with
  | nil =>
    rw [Stack.pushAll_nil] at hs
    subst hs
    exact .refl
  | cons w ws ih =>
    have hlive : m.isOver base.size = false := isOver_pushAll hs
    rw [Stack.pushAll_cons] at hs
    have hstep : m.step s =
        { m with stack := base.pushAll ws, frame := w.frameAfter m.frame } := by
      have hw (caller result) : w ≠ .activation caller result :=
        fun h => hws caller result (h ▸ List.mem_cons_self)
      obtain ⟨control, stack, frame, heap, printed, callToken⟩ := m
      obtain rfl : stack = _ := hs
      cases control with
      | eval | exec | run => cases hc
      | value v => exact absurd rfl (hv v)
      | returning v =>
        simp only [step, Stack.pop?_push]
        cases w with
        | activation caller result => exact absurd rfl (hw caller result)
        | _ => rfl
      | failing f =>
        simp only [step, Stack.pop?_push]
        cases w <;> rfl
    refine .of_step hlive ?_
    rw [hstep]
    exact ih hc hv rfl fun caller result h => hws caller result (List.mem_cons_of_mem _ h)

/-! ## Constructs that wait -/

variable {base : Stack} {x : Machine} {ws : List Waiting}

/-- The machine in a new frame inside its own. -/
def enclosed (m : Machine) : Machine :=
  let (frame, heap) := m.heap.enclose m.frame []
  { m with frame, heap }

/-- The stack overflows, with no call waiting that was not waiting before. -/
def Overflows (s : Setting) (base : Stack) (m : Machine) : Prop :=
  ∃ c ws, Course s base.size m c ∧ c.control = .failing (.overflow m.callToken) ∧
    c.stack = base.pushAll ws ∧ ∀ caller result, .activation caller result ∉ ws

theorem Overflows.of_course (h : Course s base.size a b) (ht : b.callToken = a.callToken)
    (hb : b.Overflows s base) : a.Overflows s base := by
  obtain ⟨c, ws, hc, hcontrol, hstack, hws⟩ := hb
  exact ⟨c, ws, h.trans hc, by rw [hcontrol, ht], hstack, hws⟩

/-- What waits innermost receives the value of a task that is done. -/
theorem Course.receive (hc : b.control = .value v) (hs : b.stack = base.pushAll (w :: ws))
    (h : Course s base.size ({ b with stack := base.pushAll ws }.receive s v w) c) :
    Course s base.size b c := by
  refine .of_step (isOver_pushAll hs) ?_
  rwa [step_value hc hs]

theorem course_enter (hlive : b.isOver base.size = false) (hstep : b.step s = x.enter s w i t)
    (hs : x.stack = base.pushAll ws) (hroom : ws.length + base.size < s.depth) :
    Course s base.size b
      { x with control := t, stack := base.pushAll (w :: ws), frame := i } := by
  have hsize : ¬s.depth ≤ x.stack.size := by
    rw [hs, Stack.size_pushAll]
    omega
  refine .of_step hlive ?_
  rw [hstep, enter, if_neg hsize, hs]
  exact .refl

theorem overflows_enter (hlive : b.isOver base.size = false) (hstep : b.step s = x.enter s w i t)
    (hs : x.stack = base.pushAll ws) (ht : x.callToken = b.callToken)
    (hfull : s.depth ≤ ws.length + base.size)
    (hws : ∀ caller result, .activation caller result ∉ ws) : b.Overflows s base := by
  have hsize : s.depth ≤ x.stack.size := by rwa [hs, Stack.size_pushAll]
  refine ⟨x.fail (.overflow x.callToken), ws, .of_step hlive ?_, by rw [ht]; rfl, hs, hws⟩
  rw [hstep, enter, if_pos hsize]
  exact .refl

/-! ## Blocks and loops -/

theorem step_run (hc : b.control = .run (t :: ts)) :
    b.step s = b.enter s (.rest ts) b.frame (.exec t) := by
  rw [step, hc]
  rfl

theorem step_block (hc : b.control = .exec (.block ts)) :
    b.step s = { b with heap := (b.heap.enclose b.frame []).2 }.enter s (.leave b.frame) b.size
      (.run ts) := by
  rw [step, hc]
  rfl

theorem step_while (hc : b.control = .exec (.whileLoop condition body)) :
    b.step s = b.enter s (.loopTest condition body) b.frame (.eval condition) := by
  rw [step, hc]
  rfl

section
variable (hs : b.stack = base.pushAll ws)
include hs

theorem course_while (hc : b.control = .exec (.whileLoop condition body))
    (hroom : ws.length + base.size < s.depth) :
    Course s base.size b { b with
      control := .eval condition, stack := base.pushAll (.loopTest condition body :: ws) } :=
  course_enter (isOver_of_not_isDone (by rw [hc]; rfl)) (step_while hc) hs hroom

theorem overflows_while (hc : b.control = .exec (.whileLoop condition body))
    (hfull : s.depth ≤ ws.length + base.size)
    (hws : ∀ caller result, .activation caller result ∉ ws) : b.Overflows s base :=
  overflows_enter (isOver_of_not_isDone (by rw [hc]; rfl)) (step_while hc) hs rfl hfull hws

theorem course_run (hc : b.control = .run (t :: ts)) (hroom : ws.length + base.size < s.depth) :
    Course s base.size b
      { b with control := .exec t, stack := base.pushAll (.rest ts :: ws) } :=
  course_enter (isOver_of_not_isDone (by rw [hc]; rfl)) (step_run hc) hs hroom

/-- A block takes its first statement in hand, in a new frame. -/
theorem course_block (hc : b.control = .exec (.block (t :: ts)))
    (hroom : ws.length + 1 + base.size < s.depth) :
    Course s base.size b { b.enclosed with
      control := .exec t, stack := base.pushAll (.rest ts :: .leave b.frame :: ws) } := by
  have hopens := course_enter (isOver_of_not_isDone (by rw [hc]; rfl)) (step_block (s := s) hc)
    hs (by omega)
  exact hopens.trans (course_run rfl rfl (by simpa using hroom))

theorem overflows_block (hc : b.control = .exec (.block (t :: ts)))
    (hfull : s.depth ≤ ws.length + 1 + base.size)
    (hws : ∀ caller result, .activation caller result ∉ ws) : b.Overflows s base := by
  have hlive : b.isOver base.size = false := isOver_of_not_isDone (by rw [hc]; rfl)
  by_cases hroom : ws.length + base.size < s.depth
  · refine .of_course (course_enter hlive (step_block hc) hs hroom) rfl ?_
    exact overflows_enter (isOver_of_not_isDone rfl) (step_run rfl) rfl rfl (by simpa using hfull)
      (by simpa using hws)
  · exact overflows_enter hlive (step_block hc) hs rfl (Nat.le_of_not_lt hroom) hws

end

end Machine

end LoxLang
