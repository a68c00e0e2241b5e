import LoxLang.Proofs.Histories

/-!
# Static acceptance

A source that is scanned, read and resolved without a report runs without a fault, whatever ran in
the session before (`accepted_source_faultless`): it completes, or stops with one run-time report,
or is interrupted for having taken too many steps.
-/

namespace LoxLang

/-- What may come of a run without a fault, with the reports before it. A run that is neither done
nor failed was interrupted. -/
inductive Faultless (before : Array Report) (r : Run) (c : Conduct α) : Prop where
  | completed : r.ending = .value v → c.answer = .ok a → c.session.log.reports = before →
      Faultless before r c
  | error : r.ending = .failed (.error token e) → c.answer = .ok a →
      c.session.log.reports = before.push (.atRuntime (some token) e.message) →
      Faultless before r c
  | overflow : r.ending = .failed (.overflow token) → c.answer = .ok a →
      c.session.log.reports = before.push (.atRuntime token Escape.overflowMessage) →
      Faultless before r c
  | interrupted : r.ending = .unfinished → c.answer = .error .interrupted →
      c.session.log.reports = before → Faultless before r c

/-- A task that never meets a fault, however long it runs. -/
def NeverFaults (s : Setting) (m : Machine) : Prop :=
  ∀ n f, (m.run s n).control ≠ .failing (.fault f)

/-- A sound machine never meets a fault. -/
theorem Sound.neverFaults (hw : Walked V) (hm : Sound V R m) (s : Setting) : NeverFaults s m := by
  intro n f hf
  have hc := (hm.run hw s n).control
  rw [hf] at hc
  cases hc with
  | failing hno => exact hno f rfl

/-- The run of a task that never meets a fault does not end with one. -/
theorem NeverFaults.ending {mem : Memory} {s : Setting} (h : NeverFaults s (mem.start task))
    (steps : Nat) (f : Fault) : (mem.perform s steps task).ending ≠ .failed (.fault f) := by
  intro hf
  refine h steps f ?_
  simp only [Memory.perform, Machine.ending] at hf
  split at hf
  · cases hf
  · next hc => cases hf; exact hc
  · cases hf

namespace Session

/-- What comes of a run that ends without a fault. -/
theorem conclude_faultless (s : Session) {r : Run} (h : ∀ f, r.ending ≠ .failed (.fault f))
    (answer : Unit → α) :
    Faultless s.log.reports r
      { s.conclude r with answer := (s.conclude r).answer.map answer } := by
  unfold conclude
  cases hr : r.ending with
  | value v => exact .completed hr rfl rfl
  | unfinished => exact .interrupted hr rfl rfl
  | failed f =>
    cases f with
    | error token e => exact .error hr rfl rfl
    | overflow token => exact .overflow hr rfl rfl
    | fault f => exact absurd hr (h f)

/-- An accepted program is run in the memory of the session. -/
theorem run_of_accepted {s : Session} (h : ProgramAccepted cfg.room cfg.levels source program)
    (hs : s.log.hadError = false) (path : String) :
    s.run cfg path source =
      let s := { s with log := s.log.register path source }
      let c := s.conclude (s.memory.interpret cfg.setting cfg.steps (resolveProgram program).1)
      { c with answer := c.answer.map fun _ => !c.session.log.hadRuntimeError } := by
  obtain ⟨hread, hwalked, hreports⟩ := h
  obtain ⟨hfront, hresolved⟩ := List.append_eq_nil_iff.1 hreports
  obtain ⟨hscanned, hgrammar⟩ := List.append_eq_nil_iff.1 hfront
  obtain ⟨htree, hfound⟩ := walkProgram_eq hwalked
  simp [run, scanSource, hscanned, hgrammar, hread, hwalked, htree, hfound, hresolved, report,
    Log.complainAll, Log.register, hs]

/-- An accepted expression is evaluated in the memory of the session. -/
theorem evaluate_of_accepted {s : Session} (h : ExpressionAccepted cfg.room cfg.levels source e)
    (hs : s.log.hadError = false) (path : String) :
    s.evaluate cfg path source =
      let s := { s with log := s.log.register path source }
      let r := s.memory.evaluate cfg.setting cfg.steps (resolveExpression e).1
      let c := s.conclude r
      { c with answer := c.answer.map fun _ => r.text? } := by
  obtain ⟨hread, hwalked, hreports⟩ := h
  obtain ⟨hfront, hresolved⟩ := List.append_eq_nil_iff.1 hreports
  obtain ⟨hscanned, hgrammar⟩ := List.append_eq_nil_iff.1 hfront
  obtain ⟨htree, hfound⟩ := walkExpression_eq hwalked
  simp [evaluate, scanSource, hscanned, hgrammar, hread, hwalked, htree, hfound, hresolved, report,
    Log.complainAll, Log.register, hs]

/-- After any acts, an accepted task never meets a fault. -/
theorem neverFaults_after (colored : Bool) (acts : List Act) (hn : Act.Roots a n)
    (setting : Setting) :
    NeverFaults setting (((start colored).after acts).memory.start n.task) := by
  have hm := remembers_after colored acts [a]
  exact (hm.start (visitedIn_root (by simp) hn) hn).neverFaults (walked_visitedIn _) setting

/-- After any acts, the run of an accepted program does not end with a fault. -/
theorem ending_of_program (colored : Bool) (acts : List Act)
    (h : ProgramAccepted room levels source program) (setting : Setting) (steps : Nat) (f : Fault) :
    (((start colored).after acts).memory.interpret setting steps
      (resolveProgram program).1).ending ≠ .failed (.fault f) := by
  have hroots : Act.Roots (.run true ⟨room, levels, setting, steps⟩ "" source) (.stmts program) :=
    .run h
  exact (neverFaults_after colored acts hroots setting).ending steps f

/-- After any acts, the evaluation of an accepted expression does not end with a fault. -/
theorem ending_of_expression (colored : Bool) (acts : List Act)
    (h : ExpressionAccepted room levels source e) (setting : Setting) (steps : Nat) (f : Fault) :
    (((start colored).after acts).memory.evaluate setting steps (resolveExpression e).1).ending ≠
      .failed (.fault f) := by
  have hroots : Act.Roots (.evaluate true ⟨room, levels, setting, steps⟩ "" source) (.expr e) :=
    .evaluate h
  exact (neverFaults_after colored acts hroots setting).ending steps f

end Session

/-- Whatever was run and evaluated before, an accepted source runs without a fault: however long it
runs it never meets one, and it completes, or stops with one run-time error report, or with the
report of an overflow, or is interrupted. -/
theorem accepted_source_faultless (colored : Bool) (acts : List Act) (cfg : Config)
    (path source : String) (hs : ((Session.start colored).after acts).log.hadError = false) :
    let s := (Session.start colored).after acts
    (∀ program, ProgramAccepted cfg.room cfg.levels source program →
      let task := Control.run (resolveProgram program).1
      NeverFaults cfg.setting (s.memory.start task) ∧
        Faultless s.log.reports (s.memory.perform cfg.setting cfg.steps task)
          (s.run cfg path source)) ∧
    ∀ e, ExpressionAccepted cfg.room cfg.levels source e →
      let task := Control.eval (resolveExpression e).1
      NeverFaults cfg.setting (s.memory.start task) ∧
        Faultless s.log.reports (s.memory.perform cfg.setting cfg.steps task)
          (s.evaluate cfg path source) := by
  refine ⟨fun program h => ?_, fun e h => ?_⟩
  · have hroots : Act.Roots (.run true cfg path source) (.stmts program) :=
      .run h
    have hnever := Session.neverFaults_after colored acts hroots cfg.setting
    rw [Session.run_of_accepted h hs]
    exact ⟨hnever, Session.conclude_faultless
      ⟨((Session.start colored).after acts).log.register path source, _⟩ (hnever.ending _) _⟩
  · have hroots : Act.Roots (.evaluate true cfg path source) (.expr e) :=
      .evaluate h
    have hnever := Session.neverFaults_after colored acts hroots cfg.setting
    rw [Session.evaluate_of_accepted h hs]
    exact ⟨hnever, Session.conclude_faultless
      ⟨((Session.start colored).after acts).log.register path source, _⟩ (hnever.ending _) _⟩

/-- A session in which classes were declared before their methods are called. -/
theorem accepted_source_faultless_after_classes :
    let cfg : Config := ⟨40, 40, ⟨100, fun _ => 0⟩, 1000⟩
    let s := (Session.start false).after [.run true cfg "a.lox"
      "class A { m() { return this; } } class B < A { m() { return super.m(); } }"]
    let source := "print B().m();"
    s.log.hadError = false ∧ ∃ program, ProgramAccepted cfg.room cfg.levels source program ∧
      Faultless s.log.reports
        (s.memory.perform cfg.setting cfg.steps (.run (resolveProgram program).1))
        (s.run cfg "b.lox" source) := by
  obtain ⟨program, haccepted⟩ : ∃ program, ProgramAccepted 40 40 "print B().m();" program :=
    ⟨_, (Option.some_get (by decide +kernel)).symm, by decide +kernel, by decide +kernel⟩
  have hs : ((Session.start false).after [.run true ⟨40, 40, ⟨100, fun _ => 0⟩, 1000⟩ "a.lox"
      "class A { m() { return this; } } class B < A { m() { return super.m(); } }"]).log.hadError =
      false := by decide +kernel
  exact ⟨hs, _, haccepted,
    ((accepted_source_faultless false _ ⟨40, 40, ⟨100, fun _ => 0⟩, 1000⟩ "b.lox"
    "print B().m();" hs).1 _ haccepted).2⟩

end LoxLang
