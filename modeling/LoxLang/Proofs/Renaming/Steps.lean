import LoxLang.Proofs.Renaming.Operations

/-!
# Steps beside a renaming

Two machines that are alike, one with a program and one with its renaming, stay alike (`Alike.step`,
`Alike.run`), and halt at the same moment (`Alike.halted`).
-/

namespace LoxLang

variable {φ : Renaming} {S : List Nat} {m m' : Machine}

namespace Beside

theorem define (hs : Beside φ S m m') {name name' : Token} (hx : m.frame ∈ S → name.lexeme ≠ φ.new)
    (hname : name'.lexeme = φ.name (m.frame ∈ S) name.lexeme)
    (hv : Shared φ S m.heap m'.heap v) : Alike φ (m.define name v) (m'.define name' v) := by
  obtain ⟨e, hh⟩ := hs.heap.define hx hv
  have hyield := (hs.grow e hh).yield (v := .nil) trivial
  simp only [Machine.define, Machine.yield, hname, hs.frame] at hyield ⊢
  exact hyield

/-- A variable is declared. -/
theorem defineVariable (hs : Beside φ S m m') (hd : Depth S m.heap.frames m.frame o)
    (hx : φ.Avoids o name.lexeme) (hv : Shared φ S m.heap m'.heap v) :
    Alike φ (m.define name v) (m'.define (name.rename φ (o = some 0)) v) :=
  hs.define (fun hm => hx (by simp [hd.mem.1 hm])) (by simp [hd.mem]) hv

/-! ## Tasks -/

theorem evaluate (hs : Beside φ S m m') (hd : Depth S m.heap.frames m.frame o)
    (he : Renamed φ o (.expr e) (.expr e')) (s : Setting) :
    Alike φ (m.evaluate s e) (m'.evaluate s e') := by
  cases he with
  | noExpr => exact hs.fault .absent
  | assign hx he => exact hs.await hd (.assign hx) (.eval hd he) s
  | binary hl hr => exact hs.await hd (.binaryRight hr) (.eval hd hl) s
  | call hf hes => exact hs.await hd (.callee hes) (.eval hd hf) s
  | get he => exact hs.await hd .get (.eval hd he) s
  | grouping he => exact hs.proceed (.eval hd he)
  | @literal _ c => exact hs.yield (by cases c <;> trivial)
  | logical hl hr => exact hs.await hd (.logical hr) (.eval hd hl) s
  | set he hv => exact hs.await hd (.setObject hv) (.eval hd he) s
  | super => exact hs.superMethod hd ..
  | @this _ k hk =>
    have hread := hs.read (r := k) hd fun ho => hk ho ▸ φ.new_identifier.ne_this.symm
    rwa [Reference.rename_this hk] at hread
  | unary he => exact hs.await hd .unary (.eval hd he) s
  | «variable» hx => exact hs.read hd hx

theorem execute (hs : Beside φ S m m') (hd : Depth S m.heap.frames m.frame o)
    (ht : Renamed φ o (.stmt t) (.stmt t')) (s : Setting) :
    Alike φ (m.execute s t) (m'.execute s t') := by
  cases ht with
  | noStmt => exact hs.yield (v := .nil) trivial
  | block ho hss =>
    obtain ⟨S₁, e, hh, hd'⟩ := hs.heap.enclose hd ho [] nofun nofun
    have hentered := (hs.grow e hh).enter (w := .leave m.frame) (.leave (hs.stack.extends e))
      (.run hd' hss) s
    have hnew : (m'.heap.enclose m.frame []).1 = m.heap.frames.all.size := hs.heap.frames.size
    simp only [Machine.execute, hs.frame, hnew] at hentered ⊢
    exact hentered
  | @classDecl _ superclass name fs fs' hx hold hsuper hlen hfs =>
    cases superclass with
    | none => exact hs.declareClass hd none hx hold hlen (by simpa using hfs)
    | some r =>
      have hw : WaitingAlike φ S m.heap m'.heap o (.superclass name r.name fs)
          (.superclass name (r.rename φ o).name fs') :=
        .superclass hx hold rfl hlen (by simpa using hfs)
      exact hs.await hd hw (.eval hd (.variable (hsuper r rfl))) s
  | expression he => exact hs.proceed (.eval hd he)
  | @function _ f f' hx hold hf =>
    have hc : ClosureAlike φ S m.heap 0 ⟨f, m.frame, false⟩ ⟨f', m.frame, false⟩ :=
      .intro ((deeper_zero o).symm ▸ hf) hd
    obtain ⟨e, hh⟩ := hs.heap.addClosure hc.signature
    have hx : m.frame ∈ S → f.name.lexeme ≠ φ.new := fun hm => hx (by simp [hd.mem.1 hm])
    have hname : f.name.lexeme = φ.name (m.frame ∈ S) f.name.lexeme := by
      by_cases hm : m.frame ∈ S
      · exact (φ.name_of_ne (hold (hd.mem.1 hm)) _).symm
      · simp [hm]
    have hsize := hs.heap.looks.closures_size
    have hv : Shared φ S (m.heap.addClosure ⟨f, m.frame, false⟩).2
        (m'.heap.addClosure ⟨f', m.frame, false⟩).2 (.closure m.heap.closures.size) :=
      ⟨_, _, Array.getElem?_push_size, hsize ▸ Array.getElem?_push_size, hc.extends e⟩
    have hdefined := (hs.grow e hh).define hx hname hv
    simp only [Machine.execute, Heap.addClosure, hs.frame, hsize, hf.signature] at hdefined ⊢
    exact hdefined
  | ifElse hc ht he => exact hs.await hd (.branch ht he) (.eval hd hc) s
  | print he => exact hs.await hd .print (.eval hd he) s
  | returnNil => exact hs.proceed (.returning (v := .nil) trivial)
  | returnValue he => exact hs.await hd .returnValue (.eval hd he) s
  | varNil hx => exact hs.defineVariable hd hx (v := .nil) trivial
  | varValue hx he => exact hs.await hd (.define hx) (.eval hd he) s
  | whileLoop hc hb => exact hs.await hd (.loopTest hc hb) (.eval hd hc) s

theorem runAll (hs : Beside φ S m m') (hd : Depth S m.heap.frames m.frame o)
    (hss : Renamed φ o (.stmts ss) (.stmts ss')) (s : Setting) :
    Alike φ (m.runAll s ss) (m'.runAll s ss') := by
  cases hss with
  | noStmts => exact hs.yield (v := .nil) trivial
  | stmts ht hss => exact hs.await hd (.rest hss) (.exec hd ht) s

theorem evaluateArguments (hs : Beside φ S m m') (hd : Depth S m.heap.frames m.frame o)
    (hv : Shared φ S m.heap m'.heap callee) (hbefore : ∀ v ∈ before, Shared φ S m.heap m'.heap v)
    (hes : Renamed φ o (.exprs es) (.exprs es')) (paren : Token) (s : Setting) :
    Alike φ (m.evaluateArguments s callee paren before es)
      (m'.evaluateArguments s callee paren before es') := by
  cases hes with
  | noExprs => exact hs.call hv (by simpa using hbefore) paren s
  | exprs he hes => exact hs.await hd (.argument hv hbefore hes) (.eval hd he) s

/-! ## Answers -/

/-- A value reaches a construct that waited in a frame. -/
theorem receive (hs : Beside φ S m m') (hd : Depth S m.heap.frames m.frame o)
    (hw : WaitingAlike φ S m.heap m'.heap o w w') (hv : Shared φ S m.heap m'.heap v)
    (s : Setting) : Alike φ (m.receive s v w) (m'.receive s v w') := by
  cases hw with
  | assign hx => exact hs.assign hd hx hv
  | binaryRight he => exact hs.await hd .binary (.eval hd he) s
  | binary => exact hs.conclude (Machine.concludes_binary hs.heap.looks rfl rfl ..)
  | callee hes => exact hs.evaluateArguments hd hv (List.forall_mem_nil _) hes ..
  | argument hcallee hbefore hes =>
    exact hs.evaluateArguments hd hcallee (List.forall_mem_cons.2 ⟨hv, hbefore⟩) hes ..
  | get =>
    cases v with
    | object i => exact hs.property ..
    | _ => exact hs.error ..
  | @logical _ _ op he =>
    simp only [Machine.receive]
    cases (if op.kind = .kwOr then v.truthy else !v.truthy) with
    | true => exact hs.yield hv
    | false => exact hs.proceed (.eval hd he)
  | setObject he =>
    cases v with
    | object i => exact hs.await hd .setValue (.eval hd he) s
    | _ => exact hs.error ..
  | @setValue object name =>
    obtain ⟨e, hh⟩ := hs.heap.setField hv object name.lexeme
    exact (hs.grow e hh).yield (hv.extends e)
  | unary => exact hs.conclude (Machine.concludes_unary rfl rfl _)
  | print =>
    simp only [Machine.receive, hs.heap.looks.text, hs.printed]
    exact ⟨S, ⟨hs.heap, hs.stack, hs.frame, rfl, hs.callToken⟩, .value (v := .nil) trivial⟩
  | returnValue => exact hs.proceed (.returning hv)
  | define hx => exact hs.defineVariable hd hx hv
  | branch ht he =>
    simp only [Machine.receive]
    cases v.truthy with
    | true => exact hs.proceed (.exec hd ht)
    | false => exact hs.proceed (.exec hd he)
  | loopTest hc hb =>
    simp only [Machine.receive]
    cases v.truthy with
    | true => exact hs.await hd (.loopBody hc hb) (.exec hd hb) s
    | false => exact hs.yield (v := .nil) trivial
  | loopBody hc hb => exact hs.await hd (.loopTest hc hb) (.eval hd hc) s
  | superclass hx hold hline hlen hfs =>
    cases v with
    | cls c => exact hs.declareClass hd (some c) hx hold hlen (by simpa using hfs)
    | _ => exact hs.fail (.error hline)
  | rest hss => exact hs.proceed (.run hd hss)

end Beside

/-! ## The step -/

/-- A done task reaches what waited for it. -/
theorem alike_receive (hh : HeapAlike φ S h h')
    (hs : StackAlike φ S h h' (w :: items) (w' :: items') i) (hv : Shared φ S h h' v)
    (s : Setting) :
    Alike φ (Machine.receive s ⟨.value v, ⟨items, _, rfl⟩, i, h, printed, callToken⟩ v w)
      (Machine.receive s ⟨.value v, ⟨items', _, rfl⟩, i, h', printed, callToken⟩ v w') := by
  have hbeside (j : Nat) (hs : StackAlike φ S h h' items items' j) :
      Beside φ S ⟨.value v, ⟨items, _, rfl⟩, j, h, printed, callToken⟩
        ⟨.value v, ⟨items', _, rfl⟩, j, h', printed, callToken⟩ := ⟨hh, hs, rfl, rfl, rfl⟩
  cases hs with
  | waiting hd hw hs => exact (hbeside _ hs).receive hd hw hv s
  | leave hs => exact (hbeside _ hs).yield (v := .nil) trivial
  | activation hs => exact (hbeside _ hs).finishCall _ (v := .nil) trivial

theorem alike_receiveReturn (hh : HeapAlike φ S h h')
    (hs : StackAlike φ S h h' (w :: items) (w' :: items') i) (hv : Shared φ S h h' v) :
    Alike φ (Machine.receiveReturn ⟨.returning v, ⟨items, _, rfl⟩, i, h, printed, callToken⟩ v w)
      (Machine.receiveReturn ⟨.returning v, ⟨items', _, rfl⟩, i, h', printed, callToken⟩ v w') := by
  have hbeside (j : Nat) (hs : StackAlike φ S h h' items items' j) :
      Beside φ S ⟨.returning v, ⟨items, _, rfl⟩, j, h, printed, callToken⟩
        ⟨.returning v, ⟨items', _, rfl⟩, j, h', printed, callToken⟩ := ⟨hh, hs, rfl, rfl, rfl⟩
  cases hs with
  | waiting _ hw hs => cases hw <;> exact (hbeside _ hs).proceed (.returning hv)
  | leave hs => exact (hbeside _ hs).proceed (.returning hv)
  | activation hs => exact (hbeside _ hs).finishCall _ hv

theorem alike_receiveFailure (hh : HeapAlike φ S h h')
    (hs : StackAlike φ S h h' (w :: items) (w' :: items') i) (hf : FailureAlike φ f f') :
    Alike φ (Machine.receiveFailure ⟨.failing f, ⟨items, _, rfl⟩, i, h, printed, callToken⟩ w)
      (Machine.receiveFailure ⟨.failing f', ⟨items', _, rfl⟩, i, h', printed, callToken⟩ w') := by
  cases hs with
  | waiting _ hw hs => cases hw <;> exact ⟨S, ⟨hh, hs, rfl, rfl, rfl⟩, .failing hf⟩
  | leave hs => exact ⟨S, ⟨hh, hs, rfl, rfl, rfl⟩, .failing hf⟩
  | activation hs => exact ⟨S, ⟨hh, hs, rfl, rfl, rfl⟩, .failing hf⟩

theorem Alike.step (hm : Alike φ m m') (s : Setting) : Alike φ (m.step s) (m'.step s) := by
  obtain ⟨control, ⟨items, n, hn⟩, frame, heap, printed, callToken⟩ := m
  obtain ⟨control', ⟨items', n', hn'⟩, frame', heap', printed', callToken'⟩ := m'
  obtain ⟨S, hs, hc⟩ := hm
  obtain ⟨hh, hstack, hframe, hprinted, htoken⟩ := id hs
  dsimp only at hh hstack hframe hprinted htoken hc
  subst hframe hprinted htoken hn hn'
  cases hc with
  | eval hd he => exact hs.evaluate hd he s
  | exec hd ht => exact hs.execute hd ht s
  | run hd hss => exact hs.runAll hd hss s
  | value hv =>
    cases items <;> cases items'
    case nil.nil => exact ⟨S, hs, .value hv⟩
    case cons.cons => exact alike_receive hh hstack hv s
    all_goals cases hstack
  | returning hv =>
    cases items <;> cases items'
    case nil.nil => exact hs.fault .strayReturn
    case cons.cons => exact alike_receiveReturn hh hstack hv
    all_goals cases hstack
  | failing hf =>
    cases items <;> cases items'
    case nil.nil => exact ⟨S, hs, .failing hf⟩
    case cons.cons => exact alike_receiveFailure hh hstack hf
    all_goals cases hstack

/-! ## Runs -/

theorem Alike.halted (hm : Alike φ m m') : m'.halted = m.halted := by
  obtain ⟨control, ⟨items, n, hn⟩, frame, heap, printed, callToken⟩ := m
  obtain ⟨control', ⟨items', n', hn'⟩, frame', heap', printed', callToken'⟩ := m'
  obtain ⟨S, ⟨-, hstack, -, -, -⟩, hc⟩ := hm
  dsimp only at hstack hc
  cases hc <;> cases hstack <;> rfl

theorem Alike.run (hm : Alike φ m m') (s : Setting) (n : Nat) :
    Alike φ (m.run s n) (m'.run s n) := by
  induction n generalizing m m' with
  | zero => exact hm
  | succ n ih =>
    rw [Machine.run, Machine.run, hm.halted]
    split
    · exact hm
    · exact ih (hm.step s)

end LoxLang
