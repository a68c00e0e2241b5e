import LoxLang.Proofs.Piecewise.Accepting
import LoxLang.Proofs.Piecewise.Interpreting
import LoxLang.Proofs.PiecewiseRuns

/-!
# Depth limits

How many constructs may wait at once decides only where a run stops (`lower_depth_begins`). Under a
lower limit every step is the step under a higher limit, unless the stack overflows (`capped_step`);
an overflow is passed through everything that waits, prints nothing more and is never turned into
anything else (`ending_of_overflow`).
-/

namespace LoxLang

/-- A setting that lets no more constructs wait than another one, and tells the same time. -/
structure Setting.Below (s s' : Setting) : Prop where
  depth : s.depth ≤ s'.depth
  clock : s'.clock = s.clock

namespace Machine

/-! ## One step under two limits -/

/-- What a machine goes on to under a lower and under a higher limit: to the same machine, or to an
overflow under the lower one, with nothing printed under either. -/
inductive Capped (m : Machine) : Machine → Machine → Prop where
  | same (hp : m.printed.toList <+: m'.printed.toList) : Capped m m' m'
  | cut (hc : low.control = .failing (.overflow token)) (hlow : low.printed = m.printed)
      (hhigh : high.printed = m.printed) : Capped m low high

variable {s s' : Setting} {m : Machine}

theorem Capped.quiet (h : m'.printed = m.printed) : m.Capped m' m' :=
  .same (h ▸ List.prefix_rfl)

/-- Only what was printed matters of the machine to go on from. -/
theorem Capped.of_eq {m m₁ : Machine} (h : m₁.Capped low high) (hp : m₁.printed = m.printed) :
    m.Capped low high := by
  cases h with
  | same hp' => exact .same (hp ▸ hp')
  | cut hc hlow hhigh => exact .cut hc (hlow.trans hp) (hhigh.trans hp)

theorem capped_enter (h : s.Below s') (w : Waiting) (frame : Nat) (task : Control) :
    m.Capped (m.enter s w frame task) (m.enter s' w frame task) := by
  have hdepth := h.depth
  unfold enter
  split
  · refine .cut rfl rfl ?_
    split <;> rfl
  · rw [if_neg (by omega)]
    exact .quiet rfl

theorem capped_await (h : s.Below s') (w : Waiting) (task : Control) :
    m.Capped (m.await s w task) (m.await s' w task) :=
  capped_enter h w m.frame task

theorem printed_read (r : Reference) : (m.read r).printed = m.printed := by
  unfold read; split <;> split <;> rfl

theorem printed_assign (r : Reference) (v : Value) : (m.assign r v).printed = m.printed := by
  unfold assign; split <;> split <;> rfl

theorem printed_add (left : Value) (operator : Token) (right : Value) :
    (m.add left operator right).printed = m.printed := by
  unfold add; split <;> rfl

theorem printed_binary (left : Value) (operator : Token) (right : Value) :
    (m.binary left operator right).printed = m.printed := by
  unfold binary
  split
  · rfl
  · rfl
  · exact printed_add ..
  · split
    · split <;> rfl
    · rfl

theorem printed_unary (operator : Token) (v : Value) :
    (m.unary operator v).printed = m.printed := by
  unfold unary
  split
  · rfl
  · split <;> rfl
  · rfl

theorem printed_bindMethod (k : Nat) (receiver : Value) :
    (m.bindMethod k receiver).printed = m.printed := by
  unfold bindMethod; split <;> rfl

theorem printed_property (object : Nat) (name : Token) :
    (m.property object name).printed = m.printed := by
  unfold property
  split
  · rfl
  · split
    · rfl
    · split
      · exact printed_bindMethod ..
      · rfl

theorem printed_superMethod (keyword : Reference) (method : Token) :
    (m.superMethod keyword method).printed = m.printed := by
  unfold superMethod
  split
  · rfl
  · split
    · rfl
    · rfl
    · split
      · exact printed_bindMethod ..
      · rfl
    · rfl

theorem printed_declareClass (name : Token) (superclass : Option Nat) (methods : List Function) :
    (m.declareClass name superclass methods).printed = m.printed := by
  unfold declareClass
  dsimp only
  split <;> rfl

theorem printed_finishCall (caller : Nat) (result : CallResult) (v : Value) :
    (m.finishCall caller result v).printed = m.printed := by
  cases result with
  | returned | created => rfl
  | receiver frame =>
    simp only [finishCall]
    split <;> rfl

theorem printed_receiveReturn (v : Value) (w : Waiting) :
    (m.receiveReturn v w).printed = m.printed := by
  cases w with
  | activation caller result => exact printed_finishCall ..
  | _ => rfl

theorem printed_receiveFailure (w : Waiting) : (m.receiveFailure w).printed = m.printed := by
  cases w <;> rfl

theorem control_receiveFailure (w : Waiting) : (m.receiveFailure w).control = m.control := by
  cases w <;> rfl

theorem capped_invoke (h : s.Below s') (c : Closure) (arguments : List Value)
    (result : CallResult) :
    m.Capped (m.invoke s c arguments result) (m.invoke s' c arguments result) :=
  (capped_enter h (m := { m with heap := _ }) ..).of_eq rfl

theorem capped_instantiate (h : s.Below s') (cls : Nat) (arguments : List Value) :
    m.Capped (m.instantiate s cls arguments) (m.instantiate s' cls arguments) := by
  unfold instantiate
  cases m.heap.method? cls Heap.initName with
  | none => exact .quiet rfl
  | some method =>
    dsimp only
    cases m.heap.closures[method]? with
    | none => exact .quiet rfl
    | some c => exact (capped_invoke h ..).of_eq rfl

theorem capped_callValue (h : s.Below s') (callee : Value) (arguments : List Value) :
    m.Capped (m.callValue s callee arguments) (m.callValue s' callee arguments) := by
  cases callee with
  | clock =>
    simp only [callValue, h.clock]
    exact .quiet rfl
  | closure i =>
    simp only [callValue]
    cases m.heap.closures[i]? with
    | none => exact .quiet rfl
    | some c => exact capped_invoke h ..
  | cls c => exact capped_instantiate h ..
  | _ => exact .quiet rfl

theorem capped_call (h : s.Below s') (callee : Value) (paren : Token) (arguments : List Value) :
    m.Capped (m.call s callee paren arguments) (m.call s' callee paren arguments) := by
  unfold call
  cases m.heap.arity? callee with
  | none => exact .quiet rfl
  | some n =>
    dsimp only
    split
    · exact (capped_callValue h ..).of_eq rfl
    · exact .quiet rfl

theorem capped_evaluateArguments (h : s.Below s') (callee : Value) (paren : Token)
    (before : List Value) (es : List Expr) :
    m.Capped (m.evaluateArguments s callee paren before es)
      (m.evaluateArguments s' callee paren before es) := by
  cases es with
  | nil => exact capped_call h ..
  | cons e es => exact capped_await h ..

theorem capped_evaluate (h : s.Below s') (e : Expr) :
    m.Capped (m.evaluate s e) (m.evaluate s' e) := by
  cases e with
  | missing | literal | grouping => exact .quiet rfl
  | super keyword method => exact .quiet (printed_superMethod ..)
  | this keyword => exact .quiet (printed_read ..)
  | «variable» target => exact .quiet (printed_read ..)
  | _ => exact capped_await h ..

theorem capped_execute (h : s.Below s') (t : Stmt) :
    m.Capped (m.execute s t) (m.execute s' t) := by
  cases t with
  | missing | expression | function => exact .quiet rfl
  | block body => exact (capped_enter h (m := { m with heap := _ }) ..).of_eq rfl
  | classDecl name superclass methods =>
    cases superclass with
    | none => exact .quiet (printed_declareClass ..)
    | some r => exact capped_await h ..
  | returning keyword value =>
    cases value with
    | none => exact .quiet rfl
    | some e => exact capped_await h ..
  | varDecl name value =>
    cases value with
    | none => exact .quiet rfl
    | some e => exact capped_await h ..
  | _ => exact capped_await h ..

theorem capped_runAll (h : s.Below s') (ts : List Stmt) :
    m.Capped (m.runAll s ts) (m.runAll s' ts) := by
  cases ts with
  | nil => exact .quiet rfl
  | cons t ts => exact capped_await h ..

theorem capped_receive (h : s.Below s') (v : Value) (w : Waiting) :
    m.Capped (m.receive s v w) (m.receive s' v w) := by
  cases w with
  | print =>
    refine .same ?_
    simp only [receive, Array.toList_push]
    exact List.prefix_append ..
  | binaryRight => exact capped_await h ..
  | callee => exact capped_evaluateArguments h ..
  | argument => exact capped_evaluateArguments h ..
  | logical operator right =>
    simp only [receive]
    cases (if operator.kind = .kwOr then v.truthy else !v.truthy) <;> exact .quiet rfl
  | loopTest condition body =>
    simp only [receive]
    split
    · exact capped_await h ..
    · exact .quiet rfl
  | loopBody => exact capped_await h ..
  | setObject name value =>
    cases v with
    | object i => exact capped_await h ..
    | _ =>
      simp only [receive]
      exact .quiet rfl
  -- The limit has no part in the rest.
  | get name =>
    cases v with
    | object i =>
      simp only [receive]
      exact .quiet (printed_property ..)
    | _ =>
      simp only [receive]
      exact .quiet rfl
  | superclass name parent methods =>
    cases v with
    | cls c =>
      simp only [receive]
      exact .quiet (printed_declareClass ..)
    | _ =>
      simp only [receive]
      exact .quiet rfl
  | assign target =>
    simp only [receive]
    exact .quiet (printed_assign ..)
  | binary =>
    simp only [receive]
    exact .quiet (printed_binary ..)
  | unary =>
    simp only [receive]
    exact .quiet (printed_unary ..)
  | activation caller result =>
    simp only [receive]
    exact .quiet (printed_finishCall ..)
  | setValue | returnValue | define | branch | rest | leave =>
    simp only [receive]
    exact .quiet rfl

/-- A step under the lower limit is the step under the higher one, unless the stack overflows. -/
theorem capped_step (h : s.Below s') (m : Machine) : m.Capped (m.step s) (m.step s') := by
  unfold step
  cases m.control with
  | eval e => exact capped_evaluate h e
  | exec t => exact capped_execute h t
  | run ts => exact capped_runAll h ts
  | value v =>
    cases m.stack.pop? with
    | none => exact .quiet rfl
    | some p => exact (capped_receive h v p.1).of_eq rfl
  | returning v =>
    cases m.stack.pop? with
    | none => exact .quiet rfl
    | some p => exact .quiet (printed_receiveReturn ..)
  | failing f =>
    cases m.stack.pop? with
    | none => exact .quiet rfl
    | some p => exact .quiet (printed_receiveFailure ..)

/-! ## Whole runs under two limits -/

/-- What was printed is never taken back. -/
theorem printed_prefix_run (s : Setting) (n : Nat) (m : Machine) :
    m.printed.toList <+: (m.run s n).printed.toList := by
  induction n generalizing m with
  | zero => exact List.prefix_rfl
  | succ n ih =>
    have hstep : m.printed.toList <+: (m.step s).printed.toList := by
      cases capped_step ⟨Nat.le_refl s.depth, rfl⟩ m with
      | same hp => exact hp
      | cut _ hlow _ => exact hlow ▸ List.prefix_rfl
    rw [run]
    split
    · exact List.prefix_rfl
    · exact hstep.trans (ih _)

/-- A failure stays the same failure on its way out, and nothing is printed. -/
theorem run_of_failing (hc : m.control = .failing f) (s : Setting) (n : Nat) :
    (m.run s n).control = .failing f ∧ (m.run s n).printed = m.printed := by
  induction n generalizing m with
  | zero => exact ⟨hc, rfl⟩
  | succ n ih =>
    have hstep : (m.step s).control = .failing f ∧ (m.step s).printed = m.printed := by
      simp only [step, hc]
      cases m.stack.pop? with
      | none => exact ⟨hc, rfl⟩
      | some p => exact ⟨control_receiveFailure p.1, printed_receiveFailure p.1⟩
    rw [run]
    split
    · exact ⟨hc, rfl⟩
    · obtain ⟨hcontrol, hprinted⟩ := ih hstep.1
      exact ⟨hcontrol, hprinted.trans hstep.2⟩

/-- After so many steps under the lower limit the machine is where it is after as many under the
higher one, or the stack has overflowed and less was printed. -/
theorem run_capped (h : s.Below s') (n : Nat) (m : Machine) :
    m.run s n = m.run s' n ∨
      (∃ token, (m.run s n).control = .failing (.overflow token)) ∧
        (m.run s n).printed.toList <+: (m.run s' n).printed.toList := by
  induction n generalizing m with
  | zero => exact .inl rfl
  | succ n ih =>
    rw [run, run]
    split
    · exact .inl rfl
    · have hstep := capped_step h m
      generalize m.step s = low at hstep ⊢
      generalize m.step s' = high at hstep ⊢
      cases hstep with
      | same => exact ih _
      | cut hc hlow hhigh =>
        obtain ⟨hcontrol, hprinted⟩ := run_of_failing hc s n
        refine .inr ⟨⟨_, hcontrol⟩, ?_⟩
        rw [hprinted, hlow, ← hhigh]
        exact printed_prefix_run ..

theorem halted_of_ending {m : Machine} (h : m.ending ≠ .unfinished) : m.halted = true := by
  unfold ending at h
  split at h
  · next hitems hcontrol => simp [halted, hitems, hcontrol]
  · next hitems hcontrol => simp [halted, hitems, hcontrol]
  · exact absurd rfl h

theorem ending_of_overflow {m : Machine} (hc : m.control = .failing (.overflow token)) :
    m.ending = .unfinished ∨ m.ending = .failed (.overflow token) := by
  unfold ending
  rw [hc]
  cases m.stack.items with
  | nil => exact .inr rfl
  | cons => exact .inl rfl

end Machine

/-! ## What becomes of a run -/

/-- A run that is no more than the beginning of another one: all that it printed is printed by the
other one first, and if it ended otherwise than by an overflow then it is the other one. -/
structure Run.Begins (r r' : Run) : Prop where
  printed : r.printed.toList <+: r'.printed.toList
  same : r.ending ≠ .unfinished → (∀ token, r.ending ≠ .failed (.overflow token)) → r' = r

/-- A lower limit and no more steps: the run of a task is the beginning of the other one. -/
theorem Memory.begins_perform {s s' : Setting} (h : s.Below s') (hle : n ≤ n') (task : Control)
    (mem : Memory) : (mem.perform s n task).Begins (mem.perform s' n' task) := by
  obtain ⟨k, rfl⟩ := Nat.exists_eq_add_of_le hle
  simp only [perform, Machine.run_add]
  have hcapped := Machine.run_capped h n (mem.start task)
  generalize (mem.start task).run s n = low at hcapped ⊢
  generalize (mem.start task).run s' n = high at hcapped ⊢
  have hmore := Machine.printed_prefix_run s' k high
  constructor
  · rcases hcapped with rfl | ⟨-, hprinted⟩
    · exact hmore
    · exact hprinted.trans hmore
  · intro hended hno
    dsimp only at hended hno
    rcases hcapped with rfl | ⟨⟨token, hcontrol⟩, -⟩
    · rw [Machine.run_of_halted (Machine.halted_of_ending hended)]
    · rcases Machine.ending_of_overflow hcontrol with hending | hending
      · exact absurd hending hended
      · exact absurd hending (hno token)

/-- What a session does with a source that is no more than the beginning of what it does with it
under another configuration: all that is printed is printed there first, and if the run ended and
no overflow was reported then it is the same conduct, with the same answer, reports and memory. -/
structure Conduct.Begins (s : Session) (c c' : Conduct α) : Prop where
  printed : ∃ more, c'.printed = c.printed ++ more ∧ c'.output = c.output ++ lineOut more
  same : c.answer ≠ .error .interrupted →
    (∀ r ∈ c.session.log.reports.toList.drop s.log.reports.size,
      r.message ≠ Escape.overflowMessage) → c' = c

theorem Conduct.Begins.refl (s : Session) (c : Conduct α) : c.Begins s c :=
  ⟨⟨#[], Array.append_empty.symm, by simp [lineOut]⟩, fun _ _ => rfl⟩

/-- A configuration with a lower limit on what may wait and no more steps than another one. How
deeply a source may be nested is not compared: both are to accept the source. -/
structure Config.Below (cfg cfg' : Config) : Prop where
  setting : cfg.setting.Below cfg'.setting
  steps : cfg.steps ≤ cfg'.steps

namespace Grammar

theorem derives_of_readExpression (hts : ∀ t ∈ ts, t.kind ≠ .eof) (hstop : stop.kind = .eof)
    (h : readExpression room (ts ++ [stop]) = .finished (some e) []) :
    Derives room (.expression e) ts := by
  have hsound := sound_wholeExpression room stop ⟨ts, []⟩
  rw [readExpression, run_of_ends hts hstop] at h
  cases hr : wholeExpression room stop ⟨ts, []⟩ with
  | read value next =>
    simp only [hr, Reading.finished.injEq, Option.some.injEq, List.reverse_eq_nil_iff] at h hsound
    obtain ⟨rfl, hmade⟩ := h
    obtain ⟨us, hus, hderives, hrest⟩ := hsound.2 hmade
    rw [hrest, List.append_nil] at hus
    obtain rfl : ts = us := hus
    exact hderives
  | gaveUp next => simp [hr] at h
  | tooDeep => simp [hr] at h

end Grammar

/-- Sources are accepted as the same program wherever they are accepted. -/
theorem ProgramAccepted.unique (h : ProgramAccepted room levels source program)
    (h' : ProgramAccepted room' levels' source program') : program' = program :=
  h'.derives.program_unique h.derives

/-- Higher limits on nesting accept no less. -/
theorem ProgramAccepted.mono (h : ProgramAccepted room levels source program) (hle : room ≤ room')
    (hlevels : levels ≤ levels') : ProgramAccepted room' levels' source program :=
  .of_derives h.scanned (h.derives.mono hle) (h.height_le.trans hlevels) h.resolved

theorem ExpressionAccepted.derives (h : ExpressionAccepted room levels source e) :
    Grammar.Derives room (.expression e) (words source.toList) := by
  have hreports := h.reports
  simp only [expressionReports, List.append_eq_nil_iff] at hreports
  have hread := Grammar.Reading.finished_of_value? h.read hreports.1.2
  rw [tokens_scan] at hread
  exact Grammar.derives_of_readExpression (fun _ => kind_ne_eof_of_mem_words) rfl hread

/-- The expression is no deeper than the walk may go. -/
theorem ExpressionAccepted.height_le (h : ExpressionAccepted room levels source e) :
    e.height ≤ levels := (stopped_walkExpression_iff ..).1 h.walked

/-- A source without reports from the scanner whose tokens derive an expression that can be
resolved. -/
theorem ExpressionAccepted.of_derives (hscan : (scan source.toList).reports = [])
    (hd : Grammar.Derives n (.expression e) (words source.toList)) (hle : n ≤ room)
    (hheight : e.height ≤ levels) (hresolved : (resolveExpression e).2 = []) :
    ExpressionAccepted room levels source e := by
  have hstop : (Token.endOf source.toList).kind = .eof := rfl
  have hread := Grammar.readExpression_of_derives hd hle hstop
  rw [← tokens_scan] at hread
  refine ⟨by rw [hread]; rfl, (stopped_walkExpression_iff ..).2 hheight, ?_⟩
  rw [expressionReports, hread, hscan, hresolved]
  rfl

theorem ExpressionAccepted.mono (h : ExpressionAccepted room levels source e) (hle : room ≤ room')
    (hlevels : levels ≤ levels') : ExpressionAccepted room' levels' source e := by
  have hreports := h.reports
  simp only [expressionReports, List.append_eq_nil_iff] at hreports
  exact .of_derives hreports.1.1 h.derives hle (h.height_le.trans hlevels) hreports.2

theorem ExpressionAccepted.unique (h : ExpressionAccepted room levels source e)
    (h' : ExpressionAccepted room' levels' source e') : e' = e :=
  h'.derives.expression_unique h.derives

namespace Session

/-- After an error that was not reset, an accepted program does not run. -/
theorem run_of_flagged {s : Session} (h : ProgramAccepted cfg.room cfg.levels source program)
    (hs : s.log.hadError = true) (path : String) :
    s.run cfg path source = { s with log := s.log.register path source }.stop (.ok false) := by
  obtain ⟨hread, -, hreports⟩ := h
  obtain ⟨hfront, -⟩ := List.append_eq_nil_iff.1 hreports
  obtain ⟨hscanned, hgrammar⟩ := List.append_eq_nil_iff.1 hfront
  simp [run, scanSource, hscanned, hgrammar, hread, report, Log.complainAll, Log.register,
    hs]

/-- After an error that was not reset, an accepted expression is not evaluated. -/
theorem evaluate_of_flagged {s : Session} (h : ExpressionAccepted cfg.room cfg.levels source e)
    (hs : s.log.hadError = true) (path : String) :
    s.evaluate cfg path source = { s with log := s.log.register path source }.stop (.ok none) := by
  obtain ⟨hread, -, hreports⟩ := h
  obtain ⟨hfront, -⟩ := List.append_eq_nil_iff.1 hreports
  obtain ⟨hscanned, hgrammar⟩ := List.append_eq_nil_iff.1 hfront
  simp [evaluate, scanSource, hscanned, hgrammar, hread, report, Log.complainAll, Log.register,
    hs]

theorem ending_ne_unfinished {s : Session} {r : Run} {answer : Unit → α}
    (h : (s.conclude r).answer.map answer ≠ .error .interrupted) : r.ending ≠ .unfinished := by
  intro hr
  refine h ?_
  simp only [conclude, hr]
  rfl

theorem ending_ne_overflow {s : Session} {r : Run}
    (h : ∀ q ∈ (s.conclude r).session.log.reports.toList.drop s.log.reports.size,
      q.message ≠ Escape.overflowMessage) (token : Option Token) :
    r.ending ≠ .failed (.overflow token) := by
  intro hr
  refine h (.atRuntime token Escape.overflowMessage) ?_ ?_
  · have hreports : (s.conclude r).session.log.reports =
        s.log.reports.push (.atRuntime token Escape.overflowMessage) := by
      simp only [conclude, hr]
      rfl
    rw [hreports, Array.toList_push, ← Array.length_toList, List.drop_left]
    exact List.mem_singleton_self _
  · cases token <;> rfl

theorem printed_conclude (s : Session) (r : Run) : (s.conclude r).printed = r.printed := by
  unfold conclude
  dsimp only
  split <;> rfl

/-- If a run is the beginning of another one, then so is what a session makes of it. -/
theorem begins_conclude {r r' : Run} (h : r.Begins r') (s before : Session)
    (hbefore : before.log.reports.size = s.log.reports.size)
    (answer : Run → Conduct Unit → Unit → α) :
    Conduct.Begins before
      { s.conclude r with answer := (s.conclude r).answer.map (answer r (s.conclude r)) }
      { s.conclude r' with answer := (s.conclude r').answer.map (answer r' (s.conclude r')) } where
  printed := by
    obtain ⟨more, hmore⟩ := h.printed
    have hprinted : r'.printed = r.printed ++ more.toArray := by
      rw [← Array.toList_inj, Array.toList_append, ← hmore]
    refine ⟨more.toArray, ?_, ?_⟩
    · rw [printed_conclude, printed_conclude, hprinted]
    · simp only [Conduct.output, printed_conclude, hprinted, lineOut_append]
  same hanswer hreports := by
    rw [hbefore] at hreports
    rw [h.same (ending_ne_unfinished hanswer) (ending_ne_overflow hreports)]

end Session

/-- The depth limit decides only where a run stops. Whatever a session went through before, a source
that is accepted under a lower and under a higher limit has under the lower one a run that is the
beginning of its run under the higher one, and the same run if it ends without an overflow. -/
theorem lower_depth_begins (s : Session) (cfg cfg' : Config) (h : cfg.Below cfg')
    (path source : String) :
    (∀ program program', ProgramAccepted cfg.room cfg.levels source program →
      ProgramAccepted cfg'.room cfg'.levels source program' →
        Conduct.Begins s (s.run cfg path source) (s.run cfg' path source)) ∧
    ∀ e e', ExpressionAccepted cfg.room cfg.levels source e →
      ExpressionAccepted cfg'.room cfg'.levels source e' →
        Conduct.Begins s (s.evaluate cfg path source) (s.evaluate cfg' path source) := by
  refine ⟨fun program program' hp hp' => ?_, fun e e' he he' => ?_⟩
  · obtain rfl := hp.unique hp'
    cases hs : s.log.hadError with
    | true =>
      rw [Session.run_of_flagged hp hs, Session.run_of_flagged hp' hs]
      exact .refl ..
    | false =>
      rw [Session.run_of_accepted hp hs, Session.run_of_accepted hp' hs]
      exact Session.begins_conclude (Memory.begins_perform h.setting h.steps _ _)
        ⟨s.log.register path source, s.memory⟩ s rfl
        fun _ c _ => !c.session.log.hadRuntimeError
  · obtain rfl := he.unique he'
    cases hs : s.log.hadError with
    | true =>
      rw [Session.evaluate_of_flagged he hs, Session.evaluate_of_flagged he' hs]
      exact .refl ..
    | false =>
      rw [Session.evaluate_of_accepted he hs, Session.evaluate_of_accepted he' hs]
      exact Session.begins_conclude (Memory.begins_perform h.setting h.steps _ _)
        ⟨s.log.register path source, s.memory⟩ s rfl
        fun r _ _ => r.text?

/-- A recursion that the higher limit lets go on for longer, and a call of it in an expression. -/
theorem lower_depth_begins_of_recursion :
    let low : Config := ⟨40, 40, ⟨12, fun _ => 0⟩, 500⟩
    let high : Config := ⟨60, 60, ⟨100, fun _ => 0⟩, 1000⟩
    let s := Session.start false
    let source := "fun f(s) \x7b print s; if (s != \"aaa\") f(s + \"a\"); \x7d f(\"\");"
    low.Below high ∧
      (∃ program, ProgramAccepted low.room low.levels source program ∧
        ProgramAccepted high.room high.levels source program ∧
        Conduct.Begins s (s.run low "a.lox" source) (s.run high "a.lox" source)) ∧
      ∃ e, ExpressionAccepted low.room low.levels "f(\"aa\")" e ∧
        ExpressionAccepted high.room high.levels "f(\"aa\")" e ∧
        Conduct.Begins s (s.evaluate low "a.lox" "f(\"aa\")")
          (s.evaluate high "a.lox" "f(\"aa\")") := by
  intro low high s source
  have hbelow : low.Below high := ⟨⟨by decide, rfl⟩, by decide⟩
  have hbegins := lower_depth_begins s low high hbelow "a.lox"
  obtain ⟨program, hp⟩ : ∃ program, ProgramAccepted 40 40 source program :=
    ⟨_, (Option.some_get (by decide +kernel)).symm, by decide +kernel, by decide +kernel⟩
  obtain ⟨e, he⟩ : ∃ e, ExpressionAccepted 40 40 "f(\"aa\")" e :=
    ⟨_, Option.join_eq_some_iff.1 (Option.some_get (by decide +kernel)).symm, by decide +kernel,
      by decide +kernel⟩
  have hp' : ProgramAccepted 60 60 source program := hp.mono (by decide) (by decide)
  have he' : ExpressionAccepted 60 60 "f(\"aa\")" e := he.mono (by decide) (by decide)
  exact ⟨hbelow, ⟨program, hp, hp', (hbegins source).1 _ _ hp hp'⟩, e, he, he',
    (hbegins "f(\"aa\")").2 _ _ he he'⟩

end LoxLang
