import LoxLang.Proofs.DepthLimits
import LoxLang.Proofs.Braces.Operations

/-!
# Steps with added braces

When the first machine takes a step, the second one takes one or more: it enters the braces before
their statement (`Beside.enterBraces`), and leaves them behind it or on the way of a `return` or a
failure. So they stay alike over a step (`Alike.step`) and over a run (`Alike.run`).
-/

namespace LoxLang

namespace Braces

variable {ρ : List Nat} {m m' : Machine} {s s' : Setting}

namespace Beside

/-! ## Tasks -/

theorem evaluate (hs : Beside ρ m m') (hp : InPlace ρ o m m')
    (he : Braced o (.expr e) (.expr e')) : Follows (m.evaluate s e) (m'.evaluate s' e') := by
  cases he with
  | noExpr => exact hs.fault .absent
  | assign he => exact hs.await hp .assign (.eval hp he)
  | binary hl hr => exact hs.await hp (.binaryRight hr) (.eval hp hl)
  | call hf hes => exact hs.await hp (.callee hes) (.eval hp hf)
  | get he => exact hs.await hp .get (.eval hp he)
  | grouping he => exact hs.proceed (.eval hp he)
  | @literal _ c => exact hs.yield (by cases c <;> trivial)
  | logical hl hr => exact hs.await hp (.logical hr) (.eval hp hl)
  | set he hv => exact hs.await hp (.setObject hv) (.eval hp he)
  | super hsuper => exact hs.superMethod hp hsuper _
  | this => exact hs.read hp _
  | unary he => exact hs.await hp .unary (.eval hp he)
  | «variable» => exact hs.read hp _

/-- A statement that is not in the braces itself. -/
theorem execute (hs : Beside ρ m m') (hp : InPlace ρ o m m') (hi : Ignores m.stack.items)
    (ht : Braced o (.stmt t) (.stmt t')) :
    Follows (m.execute s t) (m'.execute s' t') ∨
      o = none ∧ ∃ u, t' = .block [u] ∧ Braced (some 0) (.stmt t) (.stmt u) := by
  cases ht with
  | braces ht => exact .inr ⟨rfl, _, rfl, ht⟩
  | noStmt => exact .inl (hs.yield (v := .nil) trivial)
  | block hss =>
    obtain ⟨ρ₁, e, hh, hp'⟩ := hs.heap.enclose hp [] nofun
    exact .inl ((hs.grow e hh).enter (.leave (hs.stack.extends e)) (.run hp' hss))
  | @classDecl _ name superclass fs fs' ho hlen hfs =>
    cases superclass with
    | none => exact .inl (hs.declareClass ho hp name none hlen (by simpa using hfs))
    | some r =>
      exact .inl (hs.await hp (.superclass ho hlen (by simpa using hfs)) (.eval hp .variable))
  | expression he => exact .inl (hs.proceed (.eval hp he))
  | @function _ f f' ho hf =>
    have hc : ClosureAlike ρ m.heap m'.heap 0 ⟨f, m.frame, false⟩ ⟨f', m'.frame, false⟩ :=
      .intro ho ((deeper_zero o).symm ▸ hf) hp
    obtain ⟨e, hh⟩ := hs.heap.addClosure hc.signature
    have hsize := hs.heap.looks.closures_size
    have hv : Shared ρ (m.heap.addClosure ⟨f, m.frame, false⟩).2
        (m'.heap.addClosure ⟨f', m'.frame, false⟩).2 (.closure m.heap.closures.size) :=
      ⟨_, _, Array.getElem?_push_size, hsize ▸ Array.getElem?_push_size, hc.extends e⟩
    have hdefined := (hs.grow e hh).define (hp.counterpart ho) hv f.name
    simp only [Machine.execute, Heap.addClosure, hsize, hf.signature] at hdefined ⊢
    exact .inl hdefined
  | ifElse hc ht he => exact .inl (hs.enter (.branch hp ht he hi hs.stack) (.eval hp hc))
  | print he => exact .inl (hs.await hp .print (.eval hp he))
  | returnNil => exact .inl (hs.proceed (.returning (v := .nil) trivial))
  | returnValue he => exact .inl (hs.await hp .returnValue (.eval hp he))
  | varNil ho => exact .inl (hs.define (v := .nil) (hp.counterpart ho) trivial _)
  | varValue ho he => exact .inl (hs.await hp (.define ho) (.eval hp he))
  | whileLoop hc hb => exact .inl (hs.await hp (.loopTest hc hb) (.eval hp hc))

theorem runAll (hs : Beside ρ m m') (hp : InPlace ρ o m m')
    (hss : Braced o (.stmts ss) (.stmts ss')) : Follows (m.runAll s ss) (m'.runAll s' ss') := by
  cases hss with
  | noStmts => exact hs.yield (v := .nil) trivial
  | stmts ht hss => exact hs.await hp (.rest hss) (.exec trivial hp ht)

theorem evaluateArguments (hs : Beside ρ m m') (hclock : s'.clock = s.clock)
    (hp : InPlace ρ o m m') (hv : Shared ρ m.heap m'.heap callee)
    (hbefore : ∀ v ∈ before, Shared ρ m.heap m'.heap v)
    (hes : Braced o (.exprs es) (.exprs es')) (paren : Token) :
    Follows (m.evaluateArguments s callee paren before es)
      (m'.evaluateArguments s' callee paren before es') := by
  cases hes with
  | noExprs => exact hs.call hclock hv (by simpa using hbefore) paren
  | exprs he hes => exact hs.await hp (.argument hv hbefore hes) (.eval hp he)

/-! ## Answers -/

/-- A value reaches a construct that waited in a frame. -/
theorem receive (hs : Beside ρ m m') (hclock : s'.clock = s.clock)
    (hp : InPlace ρ o m m') (hw : WaitingAlike ρ m.heap m'.heap o w w')
    (hv : ValueAlike ρ m.heap m'.heap (w :: m.stack.items) v v') :
    Follows (m.receive s v w) (m'.receive s' v' w') := by
  cases hv with
  | ignored hi =>
    cases hw with
    | rest hss => exact hs.proceed (.run hp hss)
    | loopBody hc hb => exact hs.await hp (.loopTest hc hb) (.eval hp hc)
    | _ => exact hi.elim
  | shared hv =>
    cases hw with
    | assign => exact hs.assign hp hv _
    | binaryRight he => exact hs.await hp .binary (.eval hp he)
    | binary => exact hs.conclude (Machine.concludes_binary hs.heap.looks rfl rfl ..)
    | callee hes => exact hs.evaluateArguments hclock hp hv (List.forall_mem_nil _) hes _
    | argument hcallee hbefore hes =>
      exact hs.evaluateArguments hclock hp hcallee (List.forall_mem_cons.2 ⟨hv, hbefore⟩) hes _
    | get =>
      cases v with
      | object i => exact hs.property ..
      | _ => exact hs.error ..
    | @logical _ _ op he =>
      simp only [Machine.receive]
      cases (if op.kind = .kwOr then v.truthy else !v.truthy) with
      | true => exact hs.yield hv
      | false => exact hs.proceed (.eval hp he)
    | setObject he =>
      cases v with
      | object i => exact hs.await hp .setValue (.eval hp he)
      | _ => exact hs.error ..
    | @setValue object name =>
      obtain ⟨e, hh⟩ := hs.heap.setField hv object name.lexeme
      exact (hs.grow e hh).yield (hv.extends e)
    | unary => exact hs.conclude (Machine.concludes_unary rfl rfl _)
    | print =>
      simp only [Machine.receive, hs.heap.looks.text, hs.printed]
      exact .inl ⟨ρ, ⟨hs.heap, hs.stack, rfl⟩, .value (.shared (v := .nil) trivial)⟩
    | returnValue => exact hs.proceed (.returning hv)
    | define ho => exact hs.define (hp.counterpart ho) hv _
    | loopTest hc hb =>
      simp only [Machine.receive]
      cases v.truthy with
      | true => exact hs.await hp (.loopBody hc hb) (.exec trivial hp hb)
      | false => exact hs.yield (v := .nil) trivial
    | loopBody hc hb => exact hs.await hp (.loopTest hc hb) (.eval hp hc)
    | superclass ho hlen hfs =>
      cases v with
      | cls c => exact hs.declareClass ho hp _ (some c) hlen (by simpa using hfs)
      | _ => exact hs.error ..
    | rest hss => exact hs.proceed (.run hp hss)

end Beside

/-! ## Into the braces and out of them -/

theorem Overflowed.run (hm : Overflowed m) (s : Setting) (n : Nat) : Overflowed (m.run s n) := by
  obtain ⟨call, hc⟩ := hm
  exact ⟨call, (Machine.run_of_failing hc s n).1⟩

/-- A construct waits, or the stack overflows. -/
theorem enter_eq (s : Setting) (w : Waiting) (frame : Nat) (task : Control) (m : Machine) :
    Overflowed (m.enter s w frame task) ∨
      m.enter s w frame task = { m with stack := m.stack.push w, frame, control := task } := by
  unfold Machine.enter
  split
  · exact .inl ⟨_, rfl⟩
  · exact .inr rfl

/-- At the braces, the second machine enters them and comes to their statement. -/
theorem Beside.enterBraces (hs : Beside ρ m m') (hi : Ignores m.stack.items)
    (hp : InPlace ρ none m m') (hc : m'.control = .exec (.block [u])) (s' : Setting) :
    Overflowed (m'.run s' 2) ∨
      Beside ρ m (m'.run s' 2) ∧ (m'.run s' 2).control = .exec u ∧
        InPlace ρ (some 0) m (m'.run s' 2) := by
  obtain ⟨e, hh, hp'⟩ := hs.heap.enclose_right hp
  have hblock : m'.step s' =
      { m' with heap := (m'.heap.enclose m'.frame []).2 }.enter s' (.leave m'.frame)
        (m'.heap.enclose m'.frame []).1 (.run [u]) := by
    rw [Machine.step, hc]
    rfl
  have hone (m : Machine) : m.run s' 1 = m.step s' := Machine.run_succ s' 0 m
  rw [show m'.run s' 2 = (m'.step s').run s' 1 from Machine.run_succ s' 1 m', hblock]
  rcases enter_eq s' (.leave m'.frame) (m'.heap.enclose m'.frame []).1 (.run [u]) _ with hover | heq
  · exact .inl (hover.run s' 1)
  · rw [heq, hone]
    rcases enter_eq s' (.rest []) (m'.heap.enclose m'.frame []).1 (.exec u) _ with hover | heq
    · exact .inl hover
    · refine .inr ?_
      simp only [Machine.step, Machine.runAll, Machine.await]
      rw [heq]
      exact ⟨⟨hh, .braces hi (hs.stack.extends e), hs.printed⟩, rfl, hp'⟩

/-- A statement is executed: the second machine takes a step, or enters the braces first. -/
theorem Beside.exec (hs : Beside ρ m m') (hi : Ignores m.stack.items)
    (hp : InPlace ρ o m m') (ht : Braced o (.stmt t) (.stmt t')) (hc : m.control = .exec t)
    (hc' : m'.control = .exec t') :
    ∃ k, Follows (m.step s) (m'.run s' (k + 1)) := by
  have hstep {m : Machine} {t : Stmt} {s : Setting} (hc : m.control = .exec t) :
      m.step s = m.execute s t := by
    rw [Machine.step, hc]
  rcases hs.execute (s := s) hp hi ht with hdone | ⟨rfl, u, rfl, hu⟩
  · exact ⟨0, by rwa [Machine.run_succ, hstep hc, hstep hc']⟩
  · rcases hs.enterBraces hi hp hc' s' with hover | ⟨hs', hc', hp'⟩
    · exact ⟨1, .inr (.inr hover)⟩
    · refine ⟨2, ?_⟩
      rw [Machine.run_add s' 2 1, Machine.run_succ, hstep hc, hstep hc']
      exact (hs'.execute hp' hi hu).resolve_right fun h => Option.some_ne_none 0 h.1

section

variable {h h' : Heap} {items items' : List Waiting} {i i' : Nat} {printed : Array String}
  {callToken callToken' : Option Token}

theorem HeapAlike.beside (hh : HeapAlike ρ h h') (hs : StackAlike ρ h h' items items' i i')
    (c c' : Control) :
    Beside ρ ⟨c, ⟨items, _, rfl⟩, i, h, printed, callToken⟩
      ⟨c', ⟨items', _, rfl⟩, i', h', printed, callToken'⟩ :=
  ⟨hh, hs, rfl⟩

/-- A done task reaches what waited for it, behind the braces if the second machine is in them. -/
theorem value_step (hclock : s'.clock = s.clock) (hh : HeapAlike ρ h h')
    (hs : StackAlike ρ h h' items items' i i') (hv : ValueAlike ρ h h' items v v') :
    ∃ k, Follows (Machine.step s ⟨.value v, ⟨items, _, rfl⟩, i, h, printed, callToken⟩)
      (Machine.run s' (k + 1) ⟨.value v', ⟨items', _, rfl⟩, i', h', printed, callToken'⟩) := by
  induction hs generalizing v v' with
  | bottom => exact ⟨0, .inl ⟨ρ, hh.beside .bottom (.value v) (.value v'), .value hv⟩⟩
  | waiting hp hw hs =>
    refine ⟨0, ?_⟩
    rw [Machine.run_succ]
    exact (hh.beside hs (.value v) (.value v')).receive hclock hp hw hv
  | branch hp ht he hi hs =>
    refine ⟨0, ?_⟩
    rw [Machine.run_succ]
    cases hv with
    | ignored hi => exact hi.elim
    | shared =>
      simp only [Machine.step, Stack.pop?, Machine.receive]
      cases v.truthy with
      | true => exact (hh.beside hs (.value v) (.value v)).proceed (.exec hi hp ht)
      | false => exact (hh.beside hs (.value v) (.value v)).proceed (.exec hi hp he)
  | braces hi hs ih =>
    -- nothing is left to run in the block, and the frame around it comes back
    obtain ⟨k, hk⟩ := ih (show ValueAlike ρ h h' _ v .nil from .ignored hi)
    refine ⟨k + 3, ?_⟩
    rw [Machine.run_succ, Machine.run_succ, Machine.run_succ]
    exact hk
  | leave hs =>
    refine ⟨0, ?_⟩
    rw [Machine.run_succ]
    exact (hh.beside hs (.value v) (.value v')).yield (v := .nil) trivial
  | activation hr hs =>
    refine ⟨0, ?_⟩
    rw [Machine.run_succ]
    exact (hh.beside hs (.value v) (.value v')).finishCall hr (v := .nil) trivial

/-- A `return` passes by what waits, and the braces if the second machine is in them. -/
theorem returning_step (hh : HeapAlike ρ h h') (hs : StackAlike ρ h h' items items' i i')
    (hv : Shared ρ h h' v) :
    ∃ k, Follows (Machine.step s ⟨.returning v, ⟨items, _, rfl⟩, i, h, printed, callToken⟩)
      (Machine.run s' (k + 1) ⟨.returning v, ⟨items', _, rfl⟩, i', h', printed, callToken'⟩) := by
  induction hs with
  | bottom =>
    refine ⟨0, ?_⟩
    rw [Machine.run_succ]
    exact (hh.beside .bottom (.returning v) (.returning v)).fault .strayReturn
  | waiting _ hw hs =>
    refine ⟨0, ?_⟩
    rw [Machine.run_succ]
    cases hw <;> exact (hh.beside hs (.returning v) (.returning v)).proceed (.returning hv)
  | branch _ _ _ _ hs | leave hs =>
    refine ⟨0, ?_⟩
    rw [Machine.run_succ]
    exact (hh.beside hs (.returning v) (.returning v)).proceed (.returning hv)
  | braces _ _ ih =>
    obtain ⟨k, hk⟩ := ih
    refine ⟨k + 2, ?_⟩
    rw [Machine.run_succ, Machine.run_succ]
    exact hk
  | activation hr hs =>
    refine ⟨0, ?_⟩
    rw [Machine.run_succ]
    exact (hh.beside hs (.returning v) (.returning v)).finishCall hr hv

/-- A failure passes by all that waits. -/
theorem failing_step (hh : HeapAlike ρ h h') (hs : StackAlike ρ h h' items items' i i') :
    ∃ k, Follows (Machine.step s ⟨.failing f, ⟨items, _, rfl⟩, i, h, printed, callToken⟩)
      (Machine.run s' (k + 1) ⟨.failing f, ⟨items', _, rfl⟩, i', h', printed, callToken'⟩) := by
  induction hs with
  | bottom => exact ⟨0, .inl ⟨ρ, hh.beside .bottom (.failing f) (.failing f), .failing⟩⟩
  | waiting _ hw hs =>
    refine ⟨0, ?_⟩
    rw [Machine.run_succ]
    cases hw <;> exact (hh.beside hs (.failing f) (.failing f)).proceed .failing
  | branch _ _ _ _ hs | leave hs | activation _ hs =>
    refine ⟨0, ?_⟩
    rw [Machine.run_succ]
    exact (hh.beside hs (.failing f) (.failing f)).proceed .failing
  | braces _ _ ih =>
    obtain ⟨k, hk⟩ := ih
    refine ⟨k + 2, ?_⟩
    rw [Machine.run_succ, Machine.run_succ]
    exact hk

end

/-! ## Steps and runs -/

/-- A step of the first machine is one or more steps of the second one. -/
theorem Alike.step (hm : Alike m m') (hclock : s'.clock = s.clock) :
    ∃ k, Follows (m.step s) (m'.run s' (k + 1)) := by
  obtain ⟨control, ⟨items, n, hn⟩, frame, heap, printed, callToken⟩ := m
  obtain ⟨control', ⟨items', n', hn'⟩, frame', heap', printed', callToken'⟩ := m'
  obtain ⟨ρ, hs, hc⟩ := hm
  obtain ⟨hh, hstack, hprinted⟩ := id hs
  dsimp only at hh hstack hprinted hc
  subst hprinted hn hn'
  cases hc with
  | eval hp he =>
    refine ⟨0, ?_⟩
    rw [Machine.run_succ]
    exact hs.evaluate hp he
  | exec hi hp ht => exact hs.exec hi hp ht rfl rfl
  | run hp hss =>
    refine ⟨0, ?_⟩
    rw [Machine.run_succ]
    exact hs.runAll hp hss
  | value hv => exact value_step hclock hh hstack hv
  | returning hv => exact returning_step hh hstack hv
  | failing => exact failing_step hh hstack

/-- So many steps of the first machine are as many steps of the second one, or more. -/
theorem Alike.run (hm : Alike m m') (hclock : s'.clock = s.clock) (n : Nat) :
    ∃ n', n ≤ n' ∧ Follows (m.run s n) (m'.run s' n') := by
  induction n generalizing m m' with
  | zero => exact ⟨0, Nat.le_refl 0, .inl hm⟩
  | succ n ih =>
    rw [Machine.run_succ]
    obtain ⟨k, halike | hover | hover⟩ := hm.step (s := s) hclock
    · obtain ⟨n', hle, hn'⟩ := ih halike
      exact ⟨k + 1 + n', by omega, Machine.run_add s' .. ▸ hn'⟩
    · exact ⟨n + 1, Nat.le_refl _, .inr (.inl (hover.run s n))⟩
    · exact ⟨k + 1 + n, by omega, .inr (.inr (Machine.run_add s' .. ▸ hover.run s' n))⟩

end Braces

end LoxLang
