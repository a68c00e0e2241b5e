import LoxLang.Proofs.AssignedVariables
import LoxLang.Proofs.ImmutableStructure
import LoxLang.Proofs.InnerRuns
import LoxLang.Proofs.LoopPhases

/-!
# The variable of a for statement

The variable is bound in a frame that is made for the loop, which stays the frame of the loop until
the statement is over (`HoldsVariable`): each condition is evaluated in it, and each body and
increment in it or in a frame directly inside (`Due.frame_start`). While a block is executed,
nothing goes on in the frame around it (`Course.frame_ne_of_block`), so nothing is declared there.
-/

namespace LoxLang

namespace Machine

variable {s : Setting} {depth : Nat} {m a b x : Machine}

/-! ## Declarations -/

theorem contains_define {fs : Frames Value} (h : fs.frame? i = some f) (name : String)
    (v : Value) :
    ∃ f', (fs.define i name v).frame? i = some f' ∧ f'.bindings.contains name = true := by
  rw [Frames.frame?_define, if_pos rfl, h]
  exact ⟨_, rfl, by simp [Bindings.contains_insert]⟩

/-- A variable declaration that is carried out binds its name in the frame that it began in. -/
theorem Finishes.contains_declared (hx : x.control = .exec (.varDecl name e))
    (hb : x.Finishes s b) (hc : b.control = .value v)
    (hf : x.heap.frames.frame? x.frame = some f) :
    ∃ f', b.heap.frames.frame? x.frame = some f' ∧ f'.bindings.contains name.lexeme = true := by
  have hlive : x.isOver x.stack.size = false := isOver_of_not_isDone (by rw [hx]; rfl)
  have hstep : Course s x.stack.size (x.step s) b := by
    rcases hb.1.head with rfl | ⟨-, h⟩
    · rw [hb.2] at hlive
      cases hlive
    · exact h
  cases e with
  | none =>
    have hdefine : x.step s = x.define name .nil := by
      rw [step, hx]
      rfl
    rw [hdefine] at hstep
    obtain rfl := hstep.eq_of_isOver (isOver_iff.2 ⟨rfl, rfl⟩)
    exact contains_define hf name.lexeme .nil
  | some e =>
    have hawait : x.step s = x.await s (.define name) (.eval e) := by
      rw [step, hx]
      rfl
    rw [hawait, await, enter] at hstep
    split at hstep
    · obtain rfl := hstep.eq_of_isOver (isOver_iff.2 ⟨rfl, rfl⟩)
      cases hc
    · obtain ⟨z, hz, hrest⟩ := hstep.exists_finishes hb.2 (Nat.lt_succ_self _)
      have hs : z.stack = x.stack.pushAll [.define name] := hz.back.1
      have hframe : z.frame = x.frame := hz.back.2
      by_cases hv : ∃ w, z.control = .value w
      · obtain ⟨w, hw⟩ := hv
        have hdefine := Course.receive (s := s) hw hs .refl
        have hbound := hdefine.rest hrest hb.2
        obtain rfl := hbound.eq_of_isOver (isOver_iff.2 ⟨rfl, rfl⟩)
        obtain ⟨bs, hbs, -⟩ := hz.1.lastsIn.frames hf
        rw [← hframe] at hbs ⊢
        exact contains_define hbs name.lexeme w
      · have hleft := course_leaving (s := s) hz.isDone (fun w hw => hv ⟨w, hw⟩) hs (by simp)
        obtain rfl := (hleft.rest hrest hb.2).eq_of_isOver (isOver_iff.2 ⟨rfl, hz.isDone⟩)
        exact absurd ⟨v, hc⟩ hv

/-! ## The frame around a block -/

/-- A machine that goes on in frames of a kind, as long as nothing that waits in `base` is left. -/
def AroundAbove (base : List Waiting) (Q : Nat → Prop) (m : Machine) : Prop :=
  ∃ m₀ : Machine, m = m₀.within base ∧ m₀.Around Q

theorem AroundAbove.step {base : List Waiting} {Q : Nat → Prop} (h : m.AroundAbove base Q)
    (hlive : m.isOver base.length = false) (hroom : base.length ≤ s.depth)
    (hnew : ∀ i, m.size ≤ i → i < (m.step s).size → Q i) : (m.step s).AroundAbove base Q := by
  obtain ⟨m₀, rfl, hm₀⟩ := h
  obtain ⟨s₀, rfl⟩ : ∃ s₀ : Setting, s = s₀.deeper base.length :=
    ⟨⟨s.depth - base.length, s.clock⟩, by rw [Setting.deeper, Nat.sub_add_cancel hroom]⟩
  have hlive₀ : m₀.isOver 0 = false := by
    simpa [isOver, within, Stack.within] using hlive
  rw [within_step hlive₀] at hnew ⊢
  exact ⟨_, rfl, hm₀.step s₀ hnew⟩

/-- What was begun away from a frame goes on away from it. -/
theorem Course.aroundAbove {base : Stack} {i : Nat} (hs : m.stack = base) (hf : m.frame ≠ i)
    (hlt : m.frame < m.size) (hi : i < m.size) (hroom : base.size ≤ s.depth)
    (h : Course s base.size m x) :
    i < x.size ∧ x.AroundAbove base.items fun j => j ≠ i ∧ j < x.size := by
  induction h with
  | refl =>
    have hwhole : m = { m with stack := .empty }.within base.items := by
      have hstack : m.stack = Stack.empty.within base.items := hs.trans (Stack.ext_items rfl)
      simp only [within, ← hstack]
    exact ⟨hi, _, hwhole, ⟨hf, hlt⟩, List.forall_mem_nil _⟩
  | @step x _ hlive ih =>
    obtain ⟨hix, habove⟩ := ih
    have hle := size_le_step s x
    refine ⟨Nat.lt_of_lt_of_le hix hle, ?_⟩
    rw [← base.size_eq] at hlive hroom
    have hwider : x.AroundAbove base.items fun j => j ≠ i ∧ j < (x.step s).size := by
      obtain ⟨m₀, rfl, hm₀⟩ := habove
      exact ⟨m₀, rfl, hm₀.mono fun j hj => ⟨hj.1, Nat.lt_of_lt_of_le hj.2 hle⟩⟩
    refine hwider.step hlive hroom fun j hj hlt => ⟨?_, hlt⟩
    exact Nat.ne_of_gt (Nat.lt_of_lt_of_le hix hj)

/-- At the end of a block, the block is left at once. -/
theorem isOver_step_of_leave {base : Stack} (hd : b.control.isDone = true)
    (hs : b.stack = base.push (.leave i)) : (b.step s).isOver base.size = true := by
  obtain ⟨control, stack, frame, heap, printed, callToken⟩ := b
  obtain rfl : stack = _ := hs
  cases control with
  | eval | exec | run => cases hd
  | value | returning | failing =>
    simp only [step, Stack.pop?_push]
    exact isOver_iff.2 ⟨rfl, rfl⟩

/-- From the beginning of a block until it is over, the frame around it is not current. -/
theorem Course.frame_ne_of_block (hm : m.control = .exec (.block ts)) (hlt : m.frame < m.size)
    (h : Course s m.stack.size m x) (hlive : x.isOver m.stack.size = false) :
    x = m ∨ x.frame ≠ m.frame ∧ x.frame < x.size ∧ m.frame < x.size := by
  rcases h.head with rfl | ⟨-, h⟩
  · exact .inl rfl
  refine .inr ?_
  rw [step_block hm, enter] at h
  split at h
  · obtain rfl := h.eq_of_isOver (isOver_iff.2 ⟨rfl, rfl⟩)
    cases hlive.symm.trans (isOver_iff.2 ⟨rfl, rfl⟩)
  next hroom =>
  -- The machine in which the statements of the block begin.
  generalize hopened : ({ m with
    stack := m.stack.push (.leave m.frame), frame := m.size,
    heap := (m.heap.enclose m.frame []).2, control := .run ts } : Machine) = m₁ at h
  have hs : m₁.stack = m.stack.push (.leave m.frame) := by rw [← hopened]
  have hframe : m₁.frame = m.size := by rw [← hopened]
  have hsize : m₁.size = m.size + 1 := by
    rw [← hopened]
    exact size_enclose ..
  have hinside {y : Machine} (hy : Course s m₁.stack.size m₁ y) :
      y.frame ≠ m.frame ∧ y.frame < y.size ∧ m.frame < y.size := by
    rw [hs] at hy
    obtain ⟨hi, m₀, rfl, hm₀⟩ := hy.aroundAbove hs (i := m.frame) (by omega) (by omega) (by omega)
      (Nat.lt_of_not_le hroom)
    exact ⟨hm₀.current.1, hm₀.current.2, hi⟩
  rcases h.inner with hx | ⟨b, hb, h⟩
  · exact hinside hx
  · rcases h.head with rfl | ⟨-, h⟩
    · exact hinside hb.1
    · have hover := isOver_step_of_leave (s := s) hb.isDone (hb.back.1.trans hs)
      obtain rfl := h.eq_of_isOver hover
      rw [hover] at hlive
      cases hlive

/-- To begin a block changes no variable. -/
theorem lookup?_step_block (hm : m.control = .exec (.block ts)) (hlt : i < m.size)
    (name : String) :
    (m.step s).heap.frames.lookup? i name = m.heap.frames.lookup? i name := by
  have hheap : (m.step s).heap = (m.heap.enclose m.frame []).2 := by
    rw [step_block hm, enter]
    split <;> rfl
  rw [hheap]
  exact lookup?_make_of_lt hlt ..

/-- While a block is executed, only assignments change what the frame around it binds names to. -/
theorem Course.assigning_of_block (hm : m.control = .exec (.block ts)) (hlt : m.frame < m.size)
    (h : Course s m.stack.size m x) (hlive : x.isOver m.stack.size = false) {name : String}
    (hne : (x.step s).heap.frames.lookup? m.frame name ≠ x.heap.frames.lookup? m.frame name) :
    ∃ r v, x.Assigning r v ∧ r.name.lexeme = name ∧ x.target? r = some m.frame := by
  rcases h.frame_ne_of_block hm hlt hlive with rfl | ⟨hframe, hx, hsize⟩
  · exact absurd (lookup?_step_block hm hlt name) hne
  · obtain ⟨e, he, hj, rfl⟩ := stores_of_change (fun _ => hx) hne
    have hstores := x.stores_events e he
    cases hstores with
    | declaration => exact absurd hj hframe
    | assignment ha ht => exact ⟨_, _, ha, rfl, hj ▸ ht⟩
    | parameter _ _ hnew => exact absurd hj (Nat.ne_of_gt (Nat.lt_of_lt_of_le hsize hnew))
    | receiver | superclass => exact absurd hj (Nat.ne_of_gt hsize)

end Machine

section
variable {m x : Machine} {depth : Nat}
  (ht : ((Session.start colored).after acts).task? a = some (cfg, task))
include ht

theorem Moment.course (hm : Moment colored acts a m log)
    (h : Machine.Course cfg.setting depth m x) : ∃ log, Moment colored acts a x log := by
  have hmachine (k : Nat) : ((Session.start colored).after acts).machine? a k =
      some ((((Session.start colored).after acts).memory.start task).run cfg.setting k) := by
    rw [Session.machine?, ht]
    rfl
  induction h with
  | refl => exact ⟨log, hm⟩
  | step _ _ ih =>
    obtain ⟨log, k, hk, -⟩ := ih
    refine ⟨_, k + 1, ?_, rfl⟩
    rw [hmachine] at hk ⊢
    rw [Machine.run_add, Machine.run_succ, Option.some.inj hk]
    rfl

/-- In a session, a block brings no name into the frame around it. -/
theorem Moment.unbound_of_block (h : Moment colored acts a m log)
    (hm : m.control = .exec (.block ts)) (hx : Machine.Course cfg.setting m.stack.size m x)
    {name : String} (hname : m.heap.frames.lookup? m.frame name = none) :
    x.heap.frames.lookup? m.frame name = none := by
  have hlt : m.frame < m.size := h.isMet.inRange.around.current
  induction hx with
  | refl => exact hname
  | @step x hcourse hlive ih =>
    by_contra hbound
    obtain ⟨log', hmoment⟩ := h.course ht hcourse
    rcases hcourse.frame_ne_of_block hm hlt hlive with rfl | ⟨hframe, hframe', hsize⟩
    · rw [Machine.lookup?_step_block hm hlt] at hbound
      exact hbound hname
    · have hbrings := hmoment.bringsIn ih hbound
      generalize hj : m.frame = j at hbrings hframe hsize
      cases hbrings with
      | declaration | early => exact hframe rfl
      | parameter _ _ hnew => omega
      | receiver | superclass => omega

end

/-! ## The frame of a loop -/

namespace ForLoop

open Machine

variable {L : ForLoop} {s : Setting} {m a b : Machine} {p : Phase}

theorem lastsIn_start : a.heap.LastsIn (L.start m a p).heap := by
  cases p with
  | initializer => exact .enclose ..
  | body =>
    simp only [start]
    split
    · exact .enclose ..
    · exact .refl _
  | condition | increment => exact .refl _

theorem frame_start_initializer (h : L.Due m s (.initializer i) a) :
    (L.start m a (.initializer i)).frame = L.frame m := by
  obtain ⟨rfl, hi⟩ := h.of_initializer
  simp [start, enclosed, Heap.enclose, frame, hi, size]

/-- Each phase begins in the frame of the loop or in one directly inside, in which an increment
stands. -/
theorem Due.frame_start (h : L.Due m s p a) :
    (L.start m a p).frame = L.frame m ∨ L.increment.isSome ∧
      ∃ bs, (L.start m a p).heap.frames.frame? (L.start m a p).frame =
        some ⟨some (L.frame m), bs⟩ := by
  have hturn {a : Machine} (he : L.increment.isSome) :
      ∃ bs, (L.start m a .body).heap.frames.frame? (L.start m a .body).frame =
        some ⟨some (L.frame m), bs⟩ := by
    simp only [start, if_pos he]
    exact ⟨_, Frames.frame?_make_self ..⟩
  cases p with
  | initializer i => exact .inl (frame_start_initializer h)
  | condition => exact .inl rfl
  | body =>
    by_cases he : L.increment.isSome
    · exact .inr ⟨he, hturn he⟩
    · simp [start, if_neg he]
  | increment e =>
    obtain ⟨he, b, v, -, -, hb, -⟩ := due_increment_iff.1 h
    have he : L.increment.isSome := by rw [he]; rfl
    obtain ⟨bs, hbs⟩ := hturn (a := b) he
    obtain ⟨bs', hbs', -⟩ := hb.1.lastsIn.frames hbs
    rw [← hb.back.2] at hbs'
    exact .inr ⟨he, bs', hbs'⟩

/-- The frame of a loop with an initializer, inside the one that the statement stands in, once its
variable is bound, if it declares one. -/
def HoldsVariable (L : ForLoop) (m : Machine) (h : Heap) : Prop :=
  ∃ bs, h.frames.frame? (L.frame m) = some ⟨some m.frame, bs⟩ ∧
    ∀ name e, L.initializer = some (.varDecl name e) → bs.contains name.lexeme

theorem HoldsVariable.lasts (hv : L.HoldsVariable m h) (hl : h.LastsIn h') :
    L.HoldsVariable m h' := by
  obtain ⟨bs, hf, hbs⟩ := hv
  obtain ⟨bs', hf', hgain⟩ := hl.frames hf
  exact ⟨bs', hf', fun name e hi => hgain _ (hbs name e hi)⟩

/-- The frame of the loop is made before the initializer. -/
theorem frame?_start_initializer (h : L.Due m s (.initializer i) a) :
    (L.start m a (.initializer i)).heap.frames.frame? (L.frame m) = some ⟨some m.frame, []⟩ := by
  rw [← frame_start_initializer h]
  obtain ⟨rfl, -⟩ := h.of_initializer
  exact Frames.frame?_make_self ..

/-- Behind the initializer, the variable is bound in the frame of the loop for good. -/
theorem Due.holdsVariable (hi : L.initializer.isSome) (h : L.Due m s p a) (hp : p ≠ L.first) :
    L.HoldsVariable m a.heap := by
  induction h with
  | first => exact absurd rfl hp
  | @next p a b v q h hroom hb hc hq ih =>
    have hlasts : a.heap.LastsIn b.heap := lastsIn_start.trans hb.1.lastsIn
    by_cases hfirst : p = L.first
    · obtain ⟨i, hi⟩ := Option.isSome_iff_exists.1 hi
      obtain rfl : p = .initializer i := by rw [hfirst, ForLoop.first, hi]
      have hmade := frame?_start_initializer h
      obtain ⟨bs, hbs, -⟩ := hb.1.lastsIn.frames hmade
      refine ⟨bs, hbs, fun name e hdeclares => ?_⟩
      rw [hi] at hdeclares
      cases hdeclares
      rw [← frame_start_initializer h] at hmade hbs
      obtain ⟨f, hf, hname⟩ := hb.contains_declared rfl hc hmade
      cases hbs.symm.trans hf
      exact hname
    · exact (ih hfirst).lasts hlasts

end ForLoop

end LoxLang
