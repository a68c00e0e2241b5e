import LoxLang.Proofs.WaysBack

/-!
# The frame is restored

However code is left, the frame that was current before it is current again after it
(`frame_restored`). Nothing is asked of the code, of the memory it runs in or of what waits around
it: the trees may be resolved or not, and they may be trees that no source has.
-/

namespace LoxLang

/-- A piece of code that is run from start to end before anything around it goes on. -/
inductive Code where
  | expression (e : Expr)
  | statement (t : Stmt)
  | statements (ts : List Stmt)
  /-- The statements of a block, in a frame that was made for them. -/
  | block (frame : Nat) (ts : List Stmt)
  /-- A call of a value that has been evaluated, as have the arguments. -/
  | call (callee : Value) (paren : Token) (arguments : List Value)

namespace Machine

/-- Begins a piece of code. -/
def begin (s : Setting) (m : Machine) : Code → Machine
  | .expression e => m.proceed (.eval e)
  | .statement t => m.proceed (.exec t)
  | .statements ts => m.proceed (.run ts)
  | .block frame ts => m.enter s (.leave m.frame) frame (.run ts)
  | .call callee paren arguments => m.call s callee paren arguments

/-- A machine that is met from the beginning of a piece of code until it is over. It takes its
steps, and at any moment something outside of it may make it fail. -/
inductive Meets (s : Setting) (m : Machine) (code : Code) : Machine → Prop
  | begin : Meets s m code (m.begin s code)
  | step (h : Meets s m code m') (ho : m'.isOver m.stack.size = false) : Meets s m code (m'.step s)
  | broken (h : Meets s m code m') (ho : m'.isOver m.stack.size = false) (f : Failure) :
    Meets s m code (m'.fail f)

/-- The frame that is current again once no more than so many constructs wait. -/
def frameBack (depth : Nat) (m : Machine) : Nat :=
  (m.stack.items.take (m.stack.size - depth)).foldl Waiting.frameAfter m.frame

variable {s : Setting} {m m' : Machine}

theorem Meets.run (h : Meets s m code m') (n : Nat)
    (ho : ∀ k < n, (m'.run s k).isOver m.stack.size = false) : Meets s m code (m'.run s n) := by
  induction n generalizing m' with
  | zero => exact h
  | succ n ih =>
    rw [Machine.run]
    split
    · exact h
    · next hlive =>
      refine ih (h.step (ho 0 (by omega))) fun k hk => ?_
      have := ho (k + 1) (by omega)
      rwa [Machine.run, if_neg hlive] at this

theorem continues_begin (s : Setting) (m : Machine) (code : Code) :
    m.Continues (m.begin s code) := by
  cases code with
  | expression | statement | statements => exact .same rfl rfl
  | block => exact continues_enter _ _ _ _ _ rfl
  | call => exact continues_call ..

/-- While a piece of code runs, all waits that waited before, and what waits beyond it leads back to
the frame that the code began in. -/
theorem Meets.leads (h : Meets s m code m') : m'.Leads m.stack.items m.frame := by
  induction h with
  | begin => exact Leads.start.continues (continues_begin s m code)
  | step _ ho ih =>
    rw [← m.stack.size_eq] at ho
    exact ih.step (.inr ho)
  | broken _ _ f ih => exact ih.continues (.same rfl rfl)

theorem Leads.frameBack_eq {base : List Waiting} {frame : Nat} (h : m.Leads base frame) :
    m.frameBack base.length = frame := by
  obtain ⟨above, hs, rfl⟩ := h
  have hsize : m.stack.size - base.length = above.length := by
    rw [← m.stack.size_eq, hs, List.length_append]; omega
  rw [frameBack, hsize, hs, List.take_left]

theorem isOver_of_halted (h : m.halted = true) : m.isOver 0 = true := by
  obtain ⟨control, ⟨items, size, rfl⟩, frame, heap, printed, callToken⟩ := m
  unfold halted at h
  split at h <;> simp_all [isOver, Control.isDone]

end Machine

/-- The memory of an interpreter that has run some trees, whichever they were and however the runs
ended. -/
inductive Memory.Reached : Memory → Prop
  | initial : Reached .initial
  | interpret (h : Reached mem) (s : Setting) (steps : Nat) (program : List Stmt) :
    Reached (mem.interpret s steps program).memory
  | evaluate (h : Reached mem) (s : Setting) (steps : Nat) (e : Expr) :
    Reached (mem.evaluate s steps e).memory

theorem Memory.frame_perform (mem : Memory) (s : Setting) (steps : Nat) (task : Control) :
    (mem.perform s steps task).memory.frame = mem.frame :=
  Machine.homeFrame_run s steps (mem.start task)

theorem Memory.Reached.clean (h : Reached mem) :
    mem.frame = Heap.globals ∧ mem.callToken = none := by
  induction h with
  | initial => exact ⟨rfl, rfl⟩
  | interpret _ s steps program ih => exact ⟨(frame_perform ..).trans ih.1, rfl⟩
  | evaluate _ s steps e ih => exact ⟨(frame_perform ..).trans ih.1, rfl⟩

/-- However a piece of code is left, the machine is then in the frame that the code began in, and
all waits that waited before; until then, this is the frame that leaving the code would bring back.
So between two runs the global frame is current and no call is recorded, and a run that has come to
its end is in the global frame itself. -/
theorem frame_restored :
    (∀ s m code m', Machine.Meets s m code m' →
      m'.frameBack m.stack.size = m.frame ∧
        (m'.isOver m.stack.size = true → m'.stack.items = m.stack.items ∧ m'.frame = m.frame)) ∧
    ∀ mem, Memory.Reached mem →
      mem.frame = Heap.globals ∧ mem.callToken = none ∧
        ∀ s task n, ((mem.start task).run s n).halted = true →
          ((mem.start task).run s n).frame = Heap.globals := by
  constructor
  · intro s m code m' h
    rw [← m.stack.size_eq]
    exact ⟨h.leads.frameBack_eq, h.leads.of_isOver⟩
  · intro mem hmem
    obtain ⟨hframe, htoken⟩ := hmem.clean
    refine ⟨hframe, htoken, fun s task n hhalted => ?_⟩
    have hleads : ((mem.start task).run s n).Leads [] mem.frame :=
      Machine.Leads.start.run n (.inl rfl)
    rw [(hleads.of_isOver (Machine.isOver_of_halted hhalted)).2, hframe]

/-- In a frame inside the global one, where a `print` waits: a `return` out of a block in a loop. -/
theorem frame_restored_after_return :
    let inner : Frame Value := ⟨some 0, []⟩
    let heap : Heap := { Heap.initial with frames := ⟨#[⟨none, []⟩, inner]⟩ }
    let m : Machine := ⟨.value .nil, Stack.empty.push .print, 1, heap, #[], none⟩
    let code := Code.statement
      (.whileLoop (.literal (.bool true)) (.block [.returning default none]))
    let m' := (m.begin ⟨9, fun _ => 0⟩ code).run ⟨9, fun _ => 0⟩ 9
    m'.isOver 1 = true ∧ m'.control matches .returning .nil ∧
      m'.frameBack 1 = 1 ∧ m'.stack.items = [.print] ∧ m'.frame = 1 := by
  intro inner heap m code m'
  have hend : m'.isOver 1 = true := by decide +kernel
  have hmeets : Machine.Meets ⟨9, fun _ => 0⟩ m code m' :=
    Machine.Meets.begin.run 9 (by decide +kernel)
  obtain ⟨hback, hleft⟩ := frame_restored.1 _ _ _ _ hmeets
  exact ⟨hend, by decide +kernel, hback, hleft hend⟩

end LoxLang
