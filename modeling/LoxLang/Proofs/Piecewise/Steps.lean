import LoxLang.Proofs.Piecewise.Operations

/-!
# Steps of machines whose trees match

Two such machines stay abreast (`Inside.step`), until one of them is through with its program and
the other one comes to the statements that are left (`Onward.run`).
-/

namespace LoxLang

variable {P : Pairing} {more : List Stmt} {out : Array String} {m m' : Machine}

namespace Abreast

/-! ## Tasks -/

theorem evaluate (hs : Abreast P more out m m') (he : ExprMatches P e e') (s : Setting) :
    Inside P more out (m.evaluate s e) (m'.evaluate s e') := by
  cases he with
  | noExpr => exact hs.fault .absent
  | assign hr he => exact hs.await (.assign hr) (.eval he) s
  | binary hl ht hr => exact hs.await (.binaryRight ht hr) (.eval hl) s
  | call hf ht hes => exact hs.await (.callee ht hes) (.eval hf) s
  | get he ht => exact hs.await (.get ht) (.eval he) s
  | grouping he => exact hs.proceed (.eval he)
  | literal => exact hs.yield _
  | logical hl ht hr => exact hs.await (.logical ht hr) (.eval hl) s
  | set he ht hv => exact hs.await (.setObject ht hv) (.eval he) s
  | super hk ht => exact hs.superMethod hk ht
  | this hk => exact hs.read hk
  | unary ht he => exact hs.await (.unary ht) (.eval he) s
  | «variable» hr => exact hs.read hr

theorem execute (hs : Abreast P more out m m') (ht : StmtMatches P t t') (s : Setting) :
    Inside P more out (m.execute s t) (m'.execute s t') := by
  cases ht with
  | noStmt => exact hs.yield .nil
  | block hss =>
    obtain ⟨hframe, hh⟩ := hs.heap.enclose m.frame []
    simp only [Machine.execute, hs.frame, hframe]
    exact (hs.grow hh rfl).enter .leave (.run hss) ..
  | @classDecl _ _ superclass superclass' fs fs' hn hr hlen hfs =>
    have hfs : List.Forall₂ (FunctionMatches P) fs fs' :=
      List.forall₂_iff_zip.2 ⟨hlen, fun h => hfs _ _ h⟩
    cases hr with
    | none => exact hs.declareClass hn none hfs
    | some hr => exact hs.await (.superclass hn hr.name hfs) (.eval (.variable hr)) s
  | expression he => exact hs.proceed (.eval he)
  | @function f f' hf =>
    have hc : Closure.Matches P ⟨f, m.frame, false⟩ ⟨f', m.frame, false⟩ := ⟨hf, rfl, rfl⟩
    obtain ⟨hi, hh⟩ := hs.heap.addClosure hc
    simp only [Machine.execute, hs.frame, hi]
    exact (hs.grow hh rfl).define hf.name _
  | ifElse hc ht he => exact hs.await (.branch ht he) (.eval hc) s
  | print he => exact hs.await .print (.eval he) s
  | returnNil => exact hs.proceed .returning
  | returnValue _ he => exact hs.await .returnValue (.eval he) s
  | varNil ht => exact hs.define ht .nil
  | varValue ht he => exact hs.await (.define ht) (.eval he) s
  | whileLoop hc hb => exact hs.await (.loopTest hc hb) (.eval hc) s

theorem runAll (hs : Abreast P more out m m') (hss : Matches P (.stmts ss) (.stmts ss'))
    (s : Setting) : Inside P more out (m.runAll s ss) (m'.runAll s ss') := by
  cases hss with
  | noStmts => exact hs.yield .nil
  | stmts ht hss => exact hs.await (.rest hss) (.exec ht) s

theorem evaluateArguments (hs : Abreast P more out m m') (callee : Value) (before : List Value)
    (ht : P.rel paren paren') (hes : Matches P (.exprs es) (.exprs es')) (s : Setting) :
    Inside P more out (m.evaluateArguments s callee paren before es)
      (m'.evaluateArguments s callee paren' before es') := by
  cases hes with
  | noExprs => exact hs.call callee ht ..
  | exprs he hes => exact hs.await (.argument ht hes) (.eval he) s

/-! ## Answers -/

/-- A value reaches a construct that waited. -/
theorem receive (hs : Abreast P more out m m') (hw : w.Matches P w') (v : Value) (s : Setting) :
    Inside P more out (m.receive s v w) (m'.receive s v w') := by
  cases hw with
  | assign hr => exact hs.assign hr v
  | binaryRight ht he => exact hs.await (.binary ht) (.eval he) s
  | binary ht =>
    exact hs.conclude ht (Machine.concludes_binary hs.heap.looks (P.kind ht) (P.lexeme ht) ..)
  | callee ht hes => exact hs.evaluateArguments v [] ht hes s
  | argument ht hes => exact hs.evaluateArguments _ _ ht hes s
  | get ht =>
    cases v with
    | object i => exact hs.property i ht
    | _ => exact hs.error ht _
  | @logical op _ _ _ ht he =>
    simp only [Machine.receive, P.kind ht]
    by_cases hv : (if op.kind = .kwOr then v.truthy else !v.truthy) = true
    · rw [if_pos hv, if_pos hv]
      exact hs.yield v
    · rw [if_neg hv, if_neg hv]
      exact hs.proceed (.eval he)
  | setObject ht he =>
    cases v with
    | object i => exact hs.await (.setValue ht) (.eval he) s
    | _ => exact hs.error ht _
  | @setValue _ _ object ht =>
    simp only [Machine.receive, P.lexeme ht]
    exact (hs.grow (hs.heap.setField object _ v) hs.frame).yield v
  | unary ht => exact hs.conclude ht (Machine.concludes_unary (P.kind ht) (P.lexeme ht) v)
  | print =>
    simp only [Machine.receive, hs.heap.looks.text, hs.printed]
    exact ⟨⟨hs.heap, hs.stack, hs.frame, Array.append_push.symm⟩, .value⟩
  | returnValue => exact hs.proceed .returning
  | define ht => exact hs.define ht v
  | branch ht he =>
    simp only [Machine.receive]
    split
    · exact hs.proceed (.exec ht)
    · exact hs.proceed (.exec he)
  | loopTest hc hb =>
    simp only [Machine.receive]
    split
    · exact hs.await (.loopBody hc hb) (.exec hb) s
    · exact hs.yield .nil
  | loopBody hc hb => exact hs.await (.loopTest hc hb) (.eval hc) s
  | superclass hn hp hfs =>
    cases v with
    | cls c => exact hs.declareClass hn (some c) hfs
    | _ => exact hs.error hp _
  | rest hss => exact hs.proceed (.run hss)
  | @leave outer => exact (hs.grow (i := outer) hs.heap rfl).yield .nil
  | activation => exact hs.finishCall ..

end Abreast

namespace Inside

theorem receiveReturn (hs : Inside P more out m m') (hw : w.Matches P w') (v : Value) :
    Inside P more out (m.receiveReturn v w) (m'.receiveReturn v w') := by
  cases hw with
  | @leave outer => exact ⟨hs.grow (i := outer) hs.heap rfl, hs.control⟩
  | activation => exact hs.finishCall ..
  | _ => exact hs

theorem receiveFailure (hs : Inside P more out m m') (hw : w.Matches P w') :
    Inside P more out (m.receiveFailure w) (m'.receiveFailure w') := by
  cases hw with
  | @leave outer => exact ⟨hs.grow (i := outer) hs.heap rfl, hs.control⟩
  | @activation caller => exact ⟨hs.grow (i := caller) hs.heap rfl, hs.control⟩
  | _ => exact hs

end Inside

/-! ## The step -/

theorem Stack.pop?_eq_none {stack : Stack} (h : stack.items = []) : stack.pop? = none := by
  obtain ⟨items, n, hn⟩ := stack
  cases h
  rfl

theorem Inside.step (hm : Inside P more out m m') (s : Setting) :
    Onward P more out (m.step s) (m'.step s) := by
  obtain ⟨control, ⟨items, n, hn⟩, frame, heap, printed, callToken⟩ := m
  obtain ⟨control', ⟨items', n', hn'⟩, frame', heap', printed', callToken'⟩ := m'
  obtain ⟨hs, hc⟩ := hm
  obtain ⟨hh, hstack, hframe, hprinted⟩ := id hs
  dsimp only at hh hstack hframe hprinted hc
  subst hframe hprinted hn hn'
  cases hc with
  | eval he => exact .inside (hs.evaluate he s)
  | exec ht => exact .inside (hs.execute ht s)
  | run hss => exact .inside (hs.runAll hss s)
  | @value v =>
    cases hstack with
    | bottom hss => exact .between ⟨hh, rfl, rfl, rfl, rfl⟩ hss rfl rfl
    | push hw hstack =>
      have hpopped : Abreast P more out ⟨.value v, ⟨_, _, rfl⟩, frame', heap, printed, callToken⟩
          ⟨.value v, ⟨_, _, rfl⟩, frame', heap', out ++ printed, callToken'⟩ :=
        ⟨hh, hstack, rfl, rfl⟩
      exact .inside (hpopped.receive hw v s)
  | @returning v =>
    cases hstack with
    | bottom hss => exact .returning ⟨hh, rfl, rfl, rfl, rfl⟩ rfl rfl
    | push hw hstack =>
      have hpopped : Inside P more out ⟨.returning v, ⟨_, _, rfl⟩, frame', heap, printed, callToken⟩
          ⟨.returning v, ⟨_, _, rfl⟩, frame', heap', out ++ printed, callToken'⟩ :=
        ⟨⟨hh, hstack, rfl, rfl⟩, .returning⟩
      exact .inside (hpopped.receiveReturn hw v)
  | failing hf =>
    cases hstack with
    | bottom hss => exact .failing ⟨hh, rfl, rfl, rfl, rfl⟩ hf rfl rfl
    | push hw hstack =>
      exact .inside (Inside.receiveFailure ⟨⟨hh, hstack, rfl, rfl⟩, .failing hf⟩ hw)

theorem Onward.step (hm : Onward P more out m m') (hthrough : ¬m.Through) (s : Setting) :
    Onward P more out (m.step s) (m'.step s) := by
  cases hm with
  | inside hm => exact hm.step s
  | between hs hss hc hc' =>
    cases hss with
    | noStmts => exact absurd ⟨hs.empty, hc⟩ hthrough
    | stmts ht hss =>
      have hsize : m'.stack.size = m.stack.size := by
        rw [← m.stack.size_eq, ← m'.stack.size_eq, hs.empty, hs.empty']
      simp only [Machine.step, hc, hc', List.cons_append, Machine.runAll, Machine.await,
        Machine.enter, hsize]
      split
      · exact .failing ⟨hs.heap, hs.empty, hs.empty', hs.frame, hs.printed⟩ .overflow rfl rfl
      · refine .inside ⟨⟨hs.heap, ?_, hs.frame, hs.printed⟩, .exec ht⟩
        simp only [Stack.push, hs.empty, hs.empty']
        exact .bottom hss
  | returning hs hc hc' =>
    simp only [Machine.step, hc, hc', Stack.pop?_eq_none hs.empty, Stack.pop?_eq_none hs.empty']
    exact .failing ⟨hs.heap, hs.empty, hs.empty', hs.frame, hs.printed⟩ .fault rfl rfl
  | failing hs hf hc hc' =>
    simp only [Machine.step, hc, hc', Stack.pop?_eq_none hs.empty, Stack.pop?_eq_none hs.empty']
    exact .failing hs hf hc hc'

/-! ## Runs -/

theorem Onward.halted (hm : Onward P more out m m') : m'.halted = m.halted := by
  cases hm with
  | inside hm =>
    obtain ⟨control, ⟨items, n, hn⟩, frame, heap, printed, callToken⟩ := m
    obtain ⟨control', ⟨items', n', hn'⟩, frame', heap', printed', callToken'⟩ := m'
    obtain ⟨⟨-, hstack, -, -⟩, hc⟩ := hm
    dsimp only at hstack hc
    cases hc <;> cases hstack <;> rfl
  | between hs _ hc hc' | returning hs hc hc' | failing hs _ hc hc' =>
    simp only [Machine.halted, hc, hc', hs.empty, hs.empty']

/-- Two machines stay on their way together for as long as the first one is not through with its
program. -/
theorem Onward.run (hm : Onward P more out m m') (s : Setting) (n : Nat) :
    (∃ k ≤ n, (m.run s k).Through ∧ Onward P more out (m.run s k) (m'.run s k)) ∨
      Onward P more out (m.run s n) (m'.run s n) := by
  induction n generalizing m m' with
  | zero => exact .inr hm
  | succ n ih =>
    by_cases hthrough : m.Through
    · exact .inl ⟨0, Nat.zero_le _, hthrough, hm⟩
    rw [Machine.run, Machine.run, hm.halted]
    split
    · exact .inr hm
    · next hhalted =>
      rcases ih (hm.step hthrough s) with ⟨k, hle, hk⟩ | hn
      · refine .inl ⟨k + 1, Nat.succ_le_succ hle, ?_⟩
        rw [Machine.run, Machine.run, hm.halted, if_neg hhalted, if_neg hhalted]
        exact hk
      · exact .inr hn

end LoxLang
