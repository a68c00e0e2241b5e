import LoxLang.Proofs.Courses
import LoxLang.Proofs.Parsing.ForStatements

/-!
# Phases of a loop

The loop of a `for` statement goes through phases, each of them the course of one of its parts.
Which phase comes next is read off the value that the last one has left (`ForLoop.next?`); a phase
begins in a machine that differs from the one behind the last phase only in what is to be done, in
what waits and in the frame (`ForLoop.start`). So everything else that happens, happens in a phase
(`course_done`).
-/

namespace LoxLang

/-! ## Phases -/

namespace ForLoop

open Machine

/-- What is done in turn while a loop is executed. -/
inductive Phase where
  | initializer (i : Stmt)
  | condition
  | body
  | increment (e : Expr)

section
variable (L : ForLoop)

def first : Phase :=
  match L.initializer with
  | none => .condition
  | some i => .initializer i

/-- The phase behind one that has left a value. There is none behind a condition that does not
hold. -/
def next? (v : Value) : Phase → Option Phase
  | .initializer _ | .increment _ => some .condition
  | .condition => if v.truthy then some .body else none
  | .body =>
    match L.increment with
    | none => some .condition
    | some e => some (.increment e)

def task : Phase → Control
  | .initializer i => .exec i
  | .condition => .eval L.condition
  | .body => .exec L.body
  | .increment e => .eval e

variable (m : Machine)

/-- The frame of a loop that begins in `m`: a new one if there is an initializer. -/
def frame : Nat := if L.initializer.isSome then m.size else m.frame

/-- What waits for the loop behind its initializer. -/
def around : List Waiting := if L.initializer.isSome then [.rest [], .leave m.frame] else []

/-- What waits during a phase, besides what waits in `m`. -/
def waits : Phase → List Waiting
  | .initializer _ => [.rest [L.loop], .leave m.frame]
  | .condition => .loopTest L.condition L.turn :: L.around m
  | .body =>
    match L.increment with
    | none => .loopBody L.condition L.turn :: L.around m
    | some e => .rest [.expression e] :: .leave (L.frame m) ::
      .loopBody L.condition L.turn :: L.around m
  | .increment _ => .rest [] :: .leave (L.frame m) :: .loopBody L.condition L.turn :: L.around m

/-- The machine in which a phase begins when the one before has ended in `b`. -/
def start (b : Machine) (p : Phase) : Machine :=
  let begun := { b with control := L.task p, stack := m.stack.pushAll (L.waits m p) }
  match p with
  | .initializer _ => begun.enclosed
  | .condition => { begun with frame := L.frame m }
  | .body =>
    let inside := { begun with frame := L.frame m }
    if L.increment.isSome then inside.enclosed else inside
  | .increment _ => begun

variable (s : Setting)

/-- As many constructs may wait as wait in a phase. -/
def Room (p : Phase) : Prop := (L.waits m p).length + m.stack.size ≤ s.depth

/-- A phase comes next in `b` when the loop has begun in `m`. -/
inductive Due : Phase → Machine → Prop where
  | first : Due L.first m
  | next : Due p a → L.Room m s p → (L.start m a p).Finishes s b → b.control = .value v →
    L.next? v p = some q → Due q b

/-- The loop begun in `m` stops: its condition does not hold, or a phase is left with a `return` or
a failure. -/
inductive Stops : Machine → Prop where
  | done : Due L m s p a → L.Room m s p → (L.start m a p).Finishes s b → b.control = .value v →
    L.next? v p = none → Stops { b with control := .value .nil, stack := m.stack, frame := m.frame }
  | left : Due L m s p a → L.Room m s p → (L.start m a p).Finishes s b →
    (∀ v, b.control ≠ .value v) → Stops { b with stack := m.stack, frame := m.frame }

end

/-! ## From phase to phase -/

section
variable {L : ForLoop} {m a b : Machine} {s : Setting} {p q : Phase}

@[simp] theorem stack_start : (L.start m a p).stack = m.stack.pushAll (L.waits m p) := by
  cases p with
  | body =>
    simp only [start]
    split <;> rfl
  | _ => rfl

theorem waits_ne_nil : L.waits m p ≠ [] := by
  cases p with
  | body =>
    simp only [waits]
    split <;> exact List.cons_ne_nil _ _
  | _ => exact List.cons_ne_nil _ _

theorem not_mem_around (caller : Nat) (result : CallResult) :
    .activation caller result ∉ L.around m := by
  unfold around
  split <;> simp

theorem waits_no_call (caller : Nat) (result : CallResult) :
    .activation caller result ∉ L.waits m p := by
  have haround := not_mem_around (L := L) (m := m) caller result
  cases p with
  | body =>
    simp only [waits]
    split <;> simpa using haround
  | initializer => simp [waits]
  | _ => simpa [waits] using haround

theorem size_start : m.stack.size < (L.start m a p).stack.size := by
  rw [stack_start, Stack.size_pushAll]
  have := List.length_pos_iff.2 (waits_ne_nil (L := L) (m := m) (p := p))
  omega

/-- The machine comes to begin the phase, unless the stack overflows before. -/
def Reaches (L : ForLoop) (m : Machine) (s : Setting) (b : Machine) (q : Phase) : Prop :=
  (L.Room m s q → Course s m.stack.size b (L.start m b q)) ∧
    (¬L.Room m s q → b.Overflows s m.stack)

theorem Reaches.of_course (h : Course s m.stack.size a b) (ht : b.callToken = a.callToken)
    (hstart : L.start m b q = L.start m a q) (hb : L.Reaches m s b q) : L.Reaches m s a q :=
  ⟨fun hroom => h.trans (hstart ▸ hb.1 hroom), fun hfull => (hb.2 hfull).of_course h ht⟩

theorem start_condition (hf : b.frame = L.frame m) :
    L.start m b .condition = { b with
      control := .eval L.condition,
      stack := m.stack.pushAll (.loopTest L.condition L.turn :: L.around m) } := by
  rw [start, ← hf]
  rfl

/-- The loop itself evaluates its condition. -/
theorem reaches_of_loop (hc : b.control = .exec L.loop)
    (hs : b.stack = m.stack.pushAll (L.around m)) (hf : b.frame = L.frame m) :
    L.Reaches m s b .condition := by
  refine ⟨fun hroom => ?_, fun hfull => ?_⟩
  · rw [start_condition hf]
    exact course_while hs hc (by simp only [Room, waits, List.length_cons] at hroom; omega)
  · exact overflows_while hs hc (by simp only [Room, waits, List.length_cons] at hfull; omega)
      not_mem_around

/-- A turn executes the body. -/
theorem reaches_of_turn (hroom : L.Room m s .condition) (hc : b.control = .exec L.turn)
    (hs : b.stack = m.stack.pushAll (.loopBody L.condition L.turn :: L.around m))
    (hf : b.frame = L.frame m) : L.Reaches m s b .body := by
  simp only [Room, waits, List.length_cons] at hroom
  cases he : L.increment with
  | none =>
    have hstart : L.start m b .body = b := by
      simp only [start, task, waits, he, Option.isSome_none, ← hs, ← hf]
      rw [show L.body = L.turn by rw [turn, he]; rfl, ← hc]
      rfl
    refine ⟨fun _ => by rw [hstart]; exact .refl, fun hfull => absurd ?_ hfull⟩
    simp only [Room, waits, he, List.length_cons]
    exact hroom
  | some e =>
    have hblock : b.control = .exec (.block [L.body, .expression e]) := by
      rw [hc, turn, he]
      rfl
    have hstart : L.start m b .body = { b.enclosed with
        control := .exec L.body,
        stack := m.stack.pushAll (.rest [.expression e] :: .leave b.frame ::
          .loopBody L.condition L.turn :: L.around m) } := by
      simp only [start, task, waits, he, Option.isSome_some, if_true, ← hf]
      rfl
    refine ⟨fun hroom => ?_, fun hfull => ?_⟩
    · rw [hstart]
      refine course_block hs hblock ?_
      simp only [Room, waits, he, List.length_cons] at hroom ⊢
      omega
    · refine overflows_block hs hblock ?_ (by simpa using not_mem_around)
      simp only [Room, waits, he, List.length_cons] at hfull ⊢
      omega

theorem reaches_first (hm : m.control = .exec L.tree) : L.Reaches m s m L.first := by
  unfold first
  cases hi : L.initializer with
  | none =>
    have hloop : m.control = .exec L.loop := by
      rw [hm, tree, hi]
      rfl
    exact reaches_of_loop hloop (by simp [around, hi]) (by simp [frame, hi])
  | some i =>
    rw [tree_of_initializer hi] at hm
    have hs : m.stack = m.stack.pushAll [] := rfl
    refine ⟨fun hroom => ?_, fun hfull => ?_⟩
    · refine course_block hs hm ?_
      simp only [Room, waits, List.length_cons, List.length_nil] at hroom ⊢
      omega
    · refine overflows_block hs hm ?_ (by simp)
      simp only [Room, waits, List.length_cons, List.length_nil] at hfull ⊢
      omega

/-- Behind its initializer the loop itself is executed. -/
theorem reaches_after_initializer (hi : L.initializer = some i)
    (hroom : L.Room m s (.initializer i)) (hc : b.control = .value v)
    (hs : b.stack = m.stack.pushAll (L.waits m (.initializer i))) (hf : b.frame = L.frame m) :
    L.Reaches m s b .condition := by
  have haround : L.around m = [.rest [], .leave m.frame] := by simp [around, hi]
  simp only [Room, waits, List.length_cons, List.length_nil] at hroom
  have hloop : Course s m.stack.size b { b with
      control := .exec L.loop, stack := m.stack.pushAll (L.around m) } := by
    refine .receive hc hs ?_
    rw [haround]
    refine course_run rfl rfl ?_
    simp only [List.length_cons, List.length_nil]
    omega
  exact .of_course hloop rfl rfl (reaches_of_loop rfl rfl hf)

/-- A turn follows when the condition holds. -/
theorem reaches_after_condition (hv : v.truthy = true) (hroom : L.Room m s .condition)
    (hc : b.control = .value v) (hs : b.stack = m.stack.pushAll (L.waits m .condition))
    (hf : b.frame = L.frame m) : L.Reaches m s b .body := by
  have hreceive : b.step s = { b with stack := m.stack.pushAll (L.around m) }.enter s
      (.loopBody L.condition L.turn) b.frame (.exec L.turn) := by
    rw [step_value hc hs, Machine.receive, if_pos hv]
    rfl
  have hturn := course_enter (isOver_pushAll hs) hreceive rfl
    (by simp only [Room, waits, List.length_cons] at hroom; omega)
  exact .of_course hturn rfl rfl (reaches_of_turn hroom rfl rfl hf)

/-- Behind a turn the condition is evaluated again. -/
theorem reaches_after_turn (hroom : (L.around m).length + m.stack.size < s.depth)
    (hc : b.control = .value v)
    (hs : b.stack = m.stack.pushAll (.loopBody L.condition L.turn :: L.around m))
    (hf : b.frame = L.frame m) : L.Reaches m s b .condition := by
  have hreceive : b.step s = { b with stack := m.stack.pushAll (L.around m) }.enter s
      (.loopTest L.condition L.turn) b.frame (.eval L.condition) := by
    rw [step_value hc hs]
    rfl
  have hcondition := course_enter (isOver_pushAll hs) hreceive rfl hroom
  refine ⟨fun _ => start_condition hf ▸ hcondition, fun hfull => ?_⟩
  simp only [Room, waits, List.length_cons] at hfull
  omega

theorem reaches_after_body (he : L.increment = some e) (hroom : L.Room m s .body)
    (hc : b.control = .value v) (hs : b.stack = m.stack.pushAll (L.waits m .body)) :
    L.Reaches m s b (.increment e) := by
  simp only [Room, waits, he, List.length_cons] at hroom hs
  have hrun : Course s m.stack.size b { b with
      control := .exec (.expression e), stack := m.stack.pushAll (L.waits m (.increment e)) } := by
    refine .receive hc hs (course_run rfl rfl ?_)
    simp only [List.length_cons]
    omega
  refine ⟨fun _ => hrun.trans (.of_step (isOver_of_not_isDone rfl) .refl), fun hfull => ?_⟩
  simp only [Room, waits, List.length_cons] at hfull
  omega

theorem reaches_after_increment (hroom : L.Room m s (.increment e)) (hc : b.control = .value v)
    (hs : b.stack = m.stack.pushAll (L.waits m (.increment e))) :
    L.Reaches m s b .condition := by
  simp only [Room, waits, List.length_cons] at hroom
  have hleave : Course s m.stack.size b { b with
      control := .value .nil,
      stack := m.stack.pushAll (.loopBody L.condition L.turn :: L.around m),
      frame := L.frame m } := by
    refine .receive hc hs (.of_step (isOver_of_not_isDone rfl) ?_)
    exact .receive (v := .nil) rfl rfl .refl
  exact .of_course hleave rfl rfl (reaches_after_turn (by omega) rfl rfl rfl)

/-! ## The whole loop -/

theorem not_isDone_start : (L.start m a p).control.isDone = false := by
  cases p with
  | body =>
    simp only [start]
    split <;> rfl
  | _ => rfl

theorem Due.of_initializer (h : L.Due m s (.initializer i) a) :
    a = m ∧ L.initializer = some i := by
  generalize hp : Phase.initializer i = p at h
  cases h with
  | first =>
    refine ⟨rfl, ?_⟩
    unfold ForLoop.first at hp
    split at hp
    · cases hp
    · next hi => cases hp; exact hi
  | @next p _ _ _ _ _ _ _ _ hq =>
    subst hp
    cases p with
    | initializer | increment => cases hq
    | _ =>
      simp only [next?] at hq
      split at hq <;> cases hq

/-- A body is due behind a condition that holds, and only there. -/
theorem due_body_iff : L.Due m s .body a ↔
    ∃ b v, L.Due m s .condition b ∧ L.Room m s .condition ∧
      (L.start m b .condition).Finishes s a ∧ a.control = .value v ∧ v.truthy = true := by
  constructor
  · intro h
    generalize hp : Phase.body = p at h
    cases h with
    | first =>
      unfold first at hp
      split at hp <;> cases hp
    | @next p b _ v _ h hroom hb hc hq =>
      subst hp
      cases p with
      | condition =>
        simp only [next?] at hq
        split at hq
        · next hv => exact ⟨b, v, h, hroom, hb, hc, hv⟩
        · cases hq
      | body =>
        simp only [next?] at hq
        split at hq <;> cases hq
      | _ => cases hq
  · rintro ⟨b, v, h, hroom, hb, hc, hv⟩
    exact .next h hroom hb hc (if_pos hv)

/-- The increment is due behind a body that has been completed, and only there. -/
theorem due_increment_iff : L.Due m s (.increment e) a ↔
    L.increment = some e ∧ ∃ b v, L.Due m s .body b ∧ L.Room m s .body ∧
      (L.start m b .body).Finishes s a ∧ a.control = .value v := by
  constructor
  · intro h
    generalize hp : Phase.increment e = p at h
    cases h with
    | first =>
      unfold first at hp
      split at hp <;> cases hp
    | @next p b _ v _ h hroom hb hc hq =>
      subst hp
      cases p with
      | body =>
        simp only [next?] at hq
        split at hq
        · cases hq
        · next he => cases hq; exact ⟨he, b, v, h, hroom, hb, hc⟩
      | condition =>
        simp only [next?] at hq
        split at hq <;> cases hq
      | _ => cases hq
  · rintro ⟨he, b, v, h, hroom, hb, hc⟩
    exact .next h hroom hb hc (by simp only [next?, he])

/-- A phase that has left a value is followed by the next one. -/
theorem Due.reaches_next (h : L.Due m s p a) (hroom : L.Room m s p)
    (hb : (L.start m a p).Finishes s b) (hc : b.control = .value v) (hq : L.next? v p = some q) :
    L.Reaches m s b q := by
  obtain ⟨hs, hf⟩ := hb.back
  rw [stack_start] at hs
  cases p with
  | initializer i =>
    obtain ⟨rfl, hi⟩ := h.of_initializer
    cases hq
    refine reaches_after_initializer hi hroom hc hs (hf.trans ?_)
    simp [frame, hi, start, enclosed, Heap.enclose, size]
  | condition =>
    simp only [next?] at hq
    split at hq
    · next hv =>
      cases hq
      exact reaches_after_condition hv hroom hc hs hf
    · cases hq
  | body =>
    simp only [next?] at hq
    split at hq
    · next he =>
      cases hq
      simp only [start, he, Option.isSome_none] at hf
      simp only [Room, waits, he, List.length_cons] at hroom hs
      exact reaches_after_turn (by omega) hc hs hf
    · next he =>
      cases hq
      exact reaches_after_body he hroom hc hs
  | increment e =>
    cases hq
    exact reaches_after_increment hroom hc hs

/-- A phase that is due is met in the course of the loop. -/
theorem Due.reaches (hm : m.control = .exec L.tree) (h : L.Due m s p a) :
    Course s m.stack.size m a ∧ L.Reaches m s a p := by
  induction h with
  | first => exact ⟨.refl, reaches_first hm⟩
  | next h hroom hb hc hq ih =>
    have hpart := hb.1.outer size_start
    exact ⟨ih.1.trans ((ih.2.1 hroom).trans hpart), h.reaches_next hroom hb hc hq⟩

theorem Due.course_start (hm : m.control = .exec L.tree) (h : L.Due m s p a)
    (hroom : L.Room m s p) : Course s m.stack.size m (L.start m a p) :=
  (h.reaches hm).1.trans ((h.reaches hm).2.1 hroom)

theorem Due.course_behind (hm : m.control = .exec L.tree) (h : L.Due m s p a)
    (hroom : L.Room m s p) (hb : (L.start m a p).Finishes s b) : Course s m.stack.size m b :=
  (h.course_start hm hroom).trans (hb.1.outer size_start)

theorem Due.not_isOver (hm : m.control = .exec L.tree) (h : L.Due m s p a) :
    a.isOver m.stack.size = false := by
  cases h with
  | first => exact isOver_of_not_isDone (by rw [hm]; rfl)
  | next _ _ hb =>
    refine isOver_of_ne (Nat.ne_of_gt ?_)
    rw [hb.back.1]
    exact size_start

/-- It takes a step to begin a phase. -/
theorem Due.course_step (h : L.Due m s p a) (hstart : Course s m.stack.size a (L.start m a p)) :
    Course s m.stack.size (a.step s) (L.start m a p) := by
  rcases hstart.head with heq | ⟨-, hstep⟩
  · refine absurd heq ?_
    cases h with
    | first => exact fun heq => absurd (congrArg (·.stack.size) heq) (Nat.ne_of_lt size_start)
    | next _ _ hb hc =>
      intro heq
      have hdone := congrArg (·.control.isDone) heq
      rw [not_isDone_start, hb.isDone] at hdone
      cases hdone
  · exact hstep

/-- A condition that does not hold ends the loop. -/
theorem course_done (hv : L.next? v p = none) (hc : b.control = .value v)
    (hs : b.stack = m.stack.pushAll (L.waits m p)) :
    ∃ i, Course s m.stack.size b
      { b with control := .value .nil, stack := m.stack, frame := i } := by
  cases p with
  | condition =>
    have hfalse : ¬v.truthy = true := fun htrue => by simp [next?, htrue] at hv
    have htest : Course s m.stack.size b
        { b with control := .value .nil, stack := m.stack.pushAll (L.around m) } := by
      refine .receive hc hs ?_
      rw [receive, if_neg hfalse]
      exact .refl
    by_cases hi : L.initializer.isSome
    · have haround : L.around m = [.rest [], .leave m.frame] := by rw [around, if_pos hi]
      rw [haround] at htest
      refine ⟨m.frame, htest.trans ?_⟩
      refine .receive (v := .nil) rfl rfl (.of_step (isOver_of_not_isDone rfl) ?_)
      exact .receive (v := .nil) rfl rfl .refl
    · rw [around, if_neg hi] at htest
      exact ⟨b.frame, htest⟩
  | body =>
    simp only [next?] at hv
    split at hv <;> cases hv
  | _ => cases hv

/-- Where the loop stops, the statement is over. -/
theorem Stops.finishes (hm : m.control = .exec L.tree) (h : L.Stops m s m') :
    m.Finishes s m' := by
  cases h with
  | @done p a b v h hroom hb hc hv =>
    have hs := hb.back.1
    rw [stack_start] at hs
    obtain ⟨i, hdone⟩ := course_done (s := s) hv hc hs
    have hover : m.Finishes s { b with control := .value .nil, stack := m.stack, frame := i } :=
      ⟨(h.course_behind hm hroom hb).trans hdone, isOver_iff.2 ⟨rfl, rfl⟩⟩
    obtain rfl : i = m.frame := hover.back.2
    exact hover
  | @left p a b h hroom hb hv =>
    have hs := hb.back.1
    rw [stack_start] at hs
    have hleft := course_leaving (s := s) hb.isDone hv hs waits_no_call
    generalize hi : (L.waits m p).foldl Waiting.frameAfter b.frame = i at hleft
    have hover : m.Finishes s { b with stack := m.stack, frame := i } :=
      ⟨(h.course_behind hm hroom hb).trans hleft, isOver_iff.2 ⟨rfl, hb.isDone⟩⟩
    obtain rfl : i = m.frame := hover.back.2
    exact hover

/-- The stack overflows before a phase for which there is no room. -/
theorem Due.overflows (hm : m.control = .exec L.tree) (h : L.Due m s p a)
    (hroom : ¬L.Room m s p) :
    ∃ m', m.Finishes s m' ∧ m'.control = .failing (.overflow a.callToken) := by
  obtain ⟨c, ws, hc, hcontrol, hs, hws⟩ := (h.reaches hm).2.2 hroom
  have hleft := course_leaving (s := s) (by rw [hcontrol]; rfl) (by rw [hcontrol]; nofun) hs hws
  refine ⟨_, ⟨(h.reaches hm).1.trans (hc.trans hleft), isOver_iff.2 ⟨rfl, ?_⟩⟩, hcontrol⟩
  change c.control.isDone = true
  rw [hcontrol]
  rfl

/-- From a phase that is due, the statement comes to its end by the phases that follow. -/
theorem stops_of_due (hm : m.control = .exec L.tree) (h : L.Due m s p a)
    (hend : Course s m.stack.size a m') (ho : m'.isOver m.stack.size = true) :
    L.Stops m s m' ∨
      ∃ q b, L.Due m s q b ∧ ¬L.Room m s q ∧ m'.control = .failing (.overflow b.callToken) := by
  -- The induction is on the course that is left; a phase takes a step of it at least.
  revert p
  refine hend.head_induction (P := fun a => ∀ x, Course s m.stack.size a x →
    Course s m.stack.size x m' → ∀ {p}, L.Due m s p x → L.Stops m s m' ∨
      ∃ q b, L.Due m s q b ∧ ¬L.Room m s q ∧ m'.control = .failing (.overflow b.callToken))
    ?_ ?_ a .refl hend
  · intro x hx _ p h
    rcases hx.head with rfl | ⟨hlive, -⟩
    · rw [h.not_isOver hm] at ho
      cases ho
    · rw [ho] at hlive
      cases hlive
  · intro a _ _ ih x hx hend p h
    rcases hx.head with rfl | ⟨-, hx⟩
    · by_cases hroom : L.Room m s p
      · have hstart := (h.reaches hm).2.1 hroom
        obtain ⟨b, hb, hlater⟩ := (hstart.rest hend ho).exists_finishes ho size_start
        by_cases hv : ∃ v, b.control = .value v
        · obtain ⟨v, hc⟩ := hv
          cases hq : L.next? v p with
          | none =>
            have hstops := Stops.done h hroom hb hc hq
            have hover := hstops.finishes hm
            have hm' : m.Finishes s m' := ⟨(h.reaches hm).1.trans hend, ho⟩
            rw [hm'.unique hover]
            exact .inl hstops
          | some q =>
            have hb' := (h.course_step hstart).trans (hb.1.outer size_start)
            exact ih b hb' hlater (.next h hroom hb hc hq)
        · have hstops := Stops.left h hroom hb fun v hc => hv ⟨v, hc⟩
          have hover := hstops.finishes hm
          have hm' : m.Finishes s m' := ⟨(h.reaches hm).1.trans hend, ho⟩
          rw [hm'.unique hover]
          exact .inl hstops
      · obtain ⟨m'', hover, hcontrol⟩ := h.overflows hm hroom
        have hm' : m.Finishes s m' := ⟨(h.reaches hm).1.trans hend, ho⟩
        obtain rfl := hm'.unique hover
        exact .inr ⟨p, _, h, hroom, hcontrol⟩
    · exact ih x hx hend h

end

end ForLoop

end LoxLang
