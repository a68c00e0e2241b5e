import LoxLang.Machine.Interpret
import LoxLang.Proofs.Piecewise.Steps

/-!
# Runs of programs in two parts

The first part runs as it does by itself; once it is through, the second part runs in the memory
that the first one leaves, as it does by itself (`exists_interpret_append`).
-/

namespace LoxLang

variable {P : Pairing} {more : List Stmt} {out : Array String} {m m' : Machine}

namespace Machine

theorem run_of_halted (h : m.halted = true) (s : Setting) (n : Nat) : m.run s n = m := by
  cases n with
  | zero => rfl
  | succ n => rw [run, if_pos h]

theorem step_of_halted (h : m.halted = true) (s : Setting) : m.step s = m := by
  obtain ⟨control, ⟨items, n, hn⟩, frame, heap, printed, callToken⟩ := m
  cases items with
  | nil => cases control <;> first | rfl | cases h
  | cons => cases control <;> cases h

theorem run_succ (s : Setting) (n : Nat) (m : Machine) : m.run s (n + 1) = (m.step s).run s n := by
  rw [run]
  split
  · next h => rw [step_of_halted h, run_of_halted h]
  · rfl

theorem run_add (s : Setting) (k n : Nat) (m : Machine) :
    m.run s (k + n) = (m.run s k).run s n := by
  induction k generalizing m with
  | zero => rw [Nat.zero_add, run]
  | succ k ih =>
    rw [Nat.succ_add, run, run]
    split
    · next h => rw [run_of_halted h]
    · exact ih _

/-- A machine that is through with its program halts after one more step. -/
theorem Through.run_succ (h : m.Through) (s : Setting) (n : Nat) :
    m.run s (n + 1) = { m with control := .value .nil } := by
  have hstep : m.step s = { m with control := .value .nil } := by
    rw [step, h.2]
    rfl
  rw [run, if_neg (by simp [halted, h.2]), hstep]
  exact run_of_halted (by simp [halted, h.1]) s n

end Machine

theorem StackMatches.ne_nil (h : StackMatches P more items items') : items ≠ [] ∧ items' ≠ [] := by
  cases h <;> exact ⟨List.cons_ne_nil _ _, List.cons_ne_nil _ _⟩

/-- When the first machine is through, what the second one has yet to run is all that it has more.
-/
theorem Onward.of_through (hm : Onward P more out m m') (h : m.Through) :
    Outside P out m m' ∧ m'.control = .run more := by
  cases hm with
  | inside hm => exact absurd h.1 hm.stack.ne_nil.1
  | between hs hss hc hc' =>
    cases h.2.symm.trans hc
    cases hss
    exact ⟨hs, hc'⟩
  | returning hs hc => cases h.2.symm.trans hc
  | failing hs hf hc => cases h.2.symm.trans hc

/-! ## The first part -/

theorem Closure.Matches.eq {c c' : Closure} (hc : Closure.Matches .equal c c') : c' = c := by
  obtain ⟨f, frame, isInitializer⟩ := c
  obtain ⟨f', frame', isInitializer'⟩ := c'
  obtain ⟨hf, hframe, hinitializer⟩ := hc
  rw [Closure.mk.injEq]
  exact ⟨Node.function.inj hf.eq, hframe, hinitializer⟩

/-- Heaps that match with equal tokens are equal. -/
theorem Heap.Matches.eq {h h' : Heap} (hh : h.Matches .equal h') : h' = h := by
  have hclosures : h'.closures = h.closures := by
    refine Array.ext hh.size fun i hi' hi => ?_
    have hc := hh.closure i
    rw [Array.getElem?_eq_getElem hi, Array.getElem?_eq_getElem hi'] at hc
    cases hc with
    | some hc => exact hc.eq
  obtain ⟨frames, closures, classes, instances, ticks⟩ := h
  obtain ⟨frames', closures', classes', instances', ticks'⟩ := h'
  rw [Heap.mk.injEq]
  exact ⟨hh.frames, hclosures, hh.classes, hh.instances, hh.ticks⟩

theorem Heap.matches_self {h : Heap} (hP : ∀ t, h.Holds t → P.rel t t) : h.Matches P h := by
  refine ⟨rfl, rfl, rfl, rfl, rfl, fun i => ?_⟩
  cases hc : h.closures[i]? with
  | none => exact .none
  | some c =>
    have hmem := Array.mem_of_getElem? hc
    exact .some ⟨c.declaration.matches_self fun t ht => hP t ⟨c, hmem, ht⟩, rfl, rfl⟩

/-- The start of a program and of one that goes on behind it. -/
theorem Memory.onward_start {mem : Memory} (hh : mem.heap.Matches P mem.heap)
    (hss : Matches P (.stmts ss) (.stmts ss')) (more : List Stmt) :
    Onward P more #[] (mem.start (.run ss)) (mem.start (.run (ss' ++ more))) :=
  .between ⟨hh, rfl, rfl, rfl, Array.empty_append.symm⟩ hss rfl rfl

theorem Machine.value_of_ending {m : Machine} (h : m.ending = .value v) :
    m.stack.items = [] ∧ m.control = .value v := by
  unfold ending at h
  split at h
  · next hitems hcontrol => cases h; exact ⟨hitems, hcontrol⟩
  · cases h
  · cases h

theorem Stack.eq_empty {stack : Stack} (h : stack.items = []) : stack = .empty := by
  obtain ⟨items, n, hn⟩ := stack
  cases h
  cases hn
  rfl

/-- If a program runs to its end, then so does the first part of a program with more statements:
after as many steps what is left to run are those, in the memory that the first part leaves. -/
theorem Memory.exists_through {mem : Memory} {s : Setting}
    (h : (mem.interpret s steps program).ending = .value v) (more : List Stmt) :
    let first := mem.interpret s steps program
    ∃ k ≤ steps, ∃ callToken, (mem.start (.run (program ++ more))).run s k =
      ⟨.run more, .empty, first.memory.frame, first.memory.heap, first.printed, callToken⟩ := by
  intro first
  have hheap : mem.heap.Matches .equal mem.heap := Heap.matches_self fun _ _ => rfl
  have hprogram : Matches .equal (.stmts program) (.stmts program) :=
    stmts_match_self program fun _ _ => rfl
  obtain ⟨hitems, hcontrol⟩ := Machine.value_of_ending h
  rcases (Memory.onward_start hheap hprogram more).run s steps with ⟨k, hle, hthrough, hm⟩ | hm
  · obtain ⟨hs, hmore⟩ := hm.of_through hthrough
    obtain ⟨j, rfl⟩ := Nat.exists_eq_add_of_le hle
    cases j with
    | zero => cases hthrough.2.symm.trans hcontrol
    | succ j =>
      have hrun := hthrough.run_succ s j
      rw [← Machine.run_add] at hrun
      refine ⟨k, hle, ((mem.start (.run (program ++ more))).run s k).callToken, ?_⟩
      generalize (mem.start (.run (program ++ more))).run s k = m at hs hmore ⊢
      simp only [first, interpret, perform, hrun, Machine.homeFrame, hs.empty, List.foldl_nil]
      obtain ⟨control, stack, frame, heap, printed, callToken⟩ := m
      rw [Machine.mk.injEq]
      exact ⟨hmore, Stack.eq_empty hs.empty', hs.frame, hs.heap.eq,
        hs.printed.trans Array.empty_append, rfl⟩
  · cases hm with
    | inside hm => exact absurd hitems hm.stack.ne_nil.1
    | between _ _ hc | returning _ hc | failing _ _ hc => cases hcontrol.symm.trans hc

/-! ## The second part -/

inductive Ending.Matches (P : Pairing) : Ending → Ending → Prop where
  | value : Matches P (.value v) (.value v)
  | failed : f.Matches P f' → Matches P (.failed f) (.failed f')
  | unfinished : Matches P .unfinished .unfinished

/-- Runs that differ in the tokens of their trees, and in what the second one printed before. -/
structure Run.Matches (P : Pairing) (out : Array String) (r r' : Run) : Prop where
  ending : r.ending.Matches P r'.ending
  printed : r'.printed = out ++ r.printed
  heap : r.memory.heap.Matches P r'.memory.heap

theorem Machine.ending_of_waiting {m : Machine} (h : m.stack.items ≠ []) :
    m.ending = .unfinished := by
  unfold ending
  split
  · next hitems _ => exact absurd hitems h
  · next hitems _ => exact absurd hitems h
  · rfl

/-- What holds on the way holds of the ends. -/
theorem Onward.ending (hm : Onward P more out m m') : m.ending.Matches P m'.ending := by
  cases hm with
  | inside hm =>
    obtain ⟨hitems, hitems'⟩ := hm.stack.ne_nil
    rw [Machine.ending_of_waiting hitems, Machine.ending_of_waiting hitems']
    exact .unfinished
  | between hs _ hc hc' =>
    simp only [Machine.ending, hs.empty, hs.empty', hc, hc']
    exact .unfinished
  | returning hs hc hc' =>
    simp only [Machine.ending, hs.empty, hs.empty', hc, hc']
    exact .unfinished
  | failing hs hf hc hc' =>
    simp only [Machine.ending, hs.empty, hs.empty', hc, hc']
    exact .failed hf

theorem Onward.printed (hm : Onward P more out m m') : m'.printed = out ++ m.printed := by
  cases hm with
  | inside hm => exact hm.printed
  | between hs | returning hs | failing hs => exact hs.printed

theorem Onward.heap (hm : Onward P more out m m') : m.heap.Matches P m'.heap := by
  cases hm with
  | inside hm => exact hm.heap
  | between hs | returning hs | failing hs => exact hs.heap

/-- Two machines that run no more than matching programs have runs that match. -/
theorem Onward.run_matches (hm : Onward P [] out m m') (s : Setting) (n : Nat) :
    let r := m.run s n
    let r' := m'.run s n
    r.ending.Matches P r'.ending ∧ r'.printed = out ++ r.printed ∧ r.heap.Matches P r'.heap := by
  intro r r'
  rcases hm.run s n with ⟨k, hle, hthrough, hm⟩ | hm
  · obtain ⟨j, rfl⟩ := Nat.exists_eq_add_of_le hle
    cases j with
    | zero => exact ⟨hm.ending, hm.printed, hm.heap⟩
    | succ j =>
      obtain ⟨hs, hcontrol⟩ := hm.of_through hthrough
      have hthrough' : (m'.run s k).Through := ⟨hs.empty', hcontrol⟩
      simp only [r, r', Machine.run_add, hthrough.run_succ, hthrough'.run_succ, Machine.ending,
        hs.empty, hs.empty']
      exact ⟨.value, hs.printed, hs.heap⟩
  · exact ⟨hm.ending, hm.printed, hm.heap⟩

namespace Memory

/-- Matching programs that start in the same memory have runs that match. -/
theorem interpret_matches {mem : Memory} (hh : mem.heap.Matches P mem.heap)
    (hss : Matches P (.stmts ss) (.stmts ss')) (s : Setting) (n : Nat) :
    Run.Matches P #[] (mem.interpret s n ss) (mem.interpret s n ss') := by
  have hm := onward_start hh hss []
  rw [List.append_nil] at hm
  obtain ⟨hending, hprinted, hheap⟩ := hm.run_matches s n
  exact ⟨hending, hprinted, hheap⟩

/-- The statements behind a program that runs to its end run as they do by themselves in the memory
that it leaves. -/
theorem exists_interpret_append {mem : Memory} {s : Setting}
    (h : (mem.interpret s steps program).ending = .value v) (more : List Stmt) :
    let first := mem.interpret s steps program
    ∃ k ≤ steps, ∀ n, Run.Matches .equal first.printed (first.memory.interpret s n more)
      (mem.interpret s (k + n) (program ++ more)) := by
  intro first
  obtain ⟨k, hle, callToken, hrun⟩ := exists_through h more
  refine ⟨k, hle, fun n => ?_⟩
  have hm : Onward .equal [] first.printed (first.memory.start (.run more))
      ((mem.start (.run (program ++ more))).run s k) := by
    rw [hrun]
    refine .between ⟨Heap.matches_self fun _ _ => rfl, rfl, rfl, rfl, Array.append_empty.symm⟩
      (stmts_match_self more fun _ _ => rfl) rfl ?_
    rw [List.append_nil]
  obtain ⟨hending, hprinted, hheap⟩ := hm.run_matches s n
  rw [← Machine.run_add] at hending hprinted hheap
  exact ⟨hending, hprinted, hheap⟩

end Memory

end LoxLang
