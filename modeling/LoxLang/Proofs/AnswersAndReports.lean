import LoxLang.Proofs.ExitStatuses

/-!
# Answers and reports

The four stages that a source goes through share one log, and a stage that reports anything keeps
the later ones from beginning; so what a guarded step reports is of one kind (`Session.ComesTo`):
only what is wrong with the text, and then nothing is executed; or nothing; or the one error that
the run ends with. The answer says which, since both flags were clear before
(`answers_match_reports`).
-/

namespace LoxLang

/-- The reports that a guarded step adds to those of the session that it starts in. -/
def Conduct.reported (s : Session) (c : Conduct α) : List Report :=
  c.guarded.2.log.reports.toList.drop s.log.reports.size

/-- What a session may come to with an act that nothing interrupts, by what is reported. -/
inductive Session.ComesTo (s : Session) (a : Act) (c : Conduct α) : List Report → Prop where
  /-- The text is wrong, and nothing of it is executed. -/
  | rejected : rs ≠ [] → (∀ r ∈ rs, r.kind = .static) → s.task? a = none → c.printed = #[] →
    c.guarded.2.memory = s.memory → ComesTo s a c rs
  /-- The task is executed to its end. -/
  | completed : s.task? a = some (cfg, task) →
    (s.memory.perform cfg.setting cfg.steps task).ending = .value v → ComesTo s a c []
  /-- The task is executed up to a run-time error. -/
  | failed : s.task? a = some (cfg, task) →
    (s.memory.perform cfg.setting cfg.steps task).ending = .failed f → r.kind = .runtime →
    ComesTo s a c [r]

/-! ## Reports on the text -/

namespace Grammar

theorem consumes_wholeExpression (room : Nat) : Rule.Consumes 1 (wholeExpression room) := by
  refine (consumes_expression room).andThen (k := 0) fun e =>
    Rule.consumes_atEnd.before fun b => ?_
  cases b with
  | true => exact Rule.consumes_pure
  | false => exact Rule.consumes_reject

/-- A reading that gives up has said why. -/
theorem reports_of_gaveUp {p : Rule α} (hp : p.Sound P) (h : (run p ts).value? = some none) :
    (run p ts).reports ≠ [] := by
  unfold run at h ⊢
  dsimp only at h ⊢
  have hread := hp ((ts.find? (·.kind = .eof)).getD ⟨.eof, "", none, 1, 1⟩)
    ⟨ts.takeWhile (·.kind ≠ .eof), []⟩
  cases hr : p ((ts.find? (·.kind = .eof)).getD ⟨.eof, "", none, 1, 1⟩)
      ⟨ts.takeWhile (·.kind ≠ .eof), []⟩ with
  | read a next => rw [hr] at h; cases h
  | gaveUp next =>
    rw [hr] at hread
    exact fun hnil => hread.2 (List.reverse_eq_nil_iff.1 hnil)
  | tooDeep made => rw [hr] at h; cases h

end Grammar

namespace Input

theorem static_of_expression (cfg : Config) (path source : String) :
    ∀ r ∈ (Input.evaluate cfg path source).staticReports, r.kind = .static := by
  have hfront : ∀ r ∈ (scan source.toList).reports ++
      (Grammar.readExpression cfg.room (scan source.toList).tokens).reports, r.kind = .static :=
    List.forall_mem_append.2 ⟨static_of_scan _, (Grammar.consumes_wholeExpression _).static _⟩
  unfold staticReports
  dsimp only
  split
  · exact List.forall_mem_append.2 ⟨hfront, by simp [Report.nestedTooDeeply, Report.plain]⟩
  · exact hfront
  · split
    · exact Walk.static_of_staticReports _
    · exact hfront

theorem accepted_of_expression (h : (Input.evaluate cfg path source).staticReports = []) :
    ∃ e, ExpressionAccepted cfg.room cfg.levels source e := by
  unfold staticReports at h
  dsimp only at h
  split at h
  · simp at h
  · next hread =>
    have hne := Grammar.reports_of_gaveUp (Grammar.sound_wholeExpression cfg.room) hread
    exact absurd (List.append_eq_nil_iff.1 h).2 hne
  · next e hread =>
    split at h
    · next hfront =>
      obtain ⟨hwalked, hnone⟩ := Walk.staticReports_eq_nil.1 h
      rw [(walkExpression_eq hwalked).2] at hnone
      exact ⟨e, hread, hwalked, by rw [expressionReports, hfront, hnone]; rfl⟩
    · next hfront => exact absurd h hfront

end Input

namespace Session

/-- A source with static reports has no task. -/
theorem task?_run_of_static (s : Session) (guarded : Bool)
    (h : (Input.run cfg path source).staticReports ≠ []) :
    s.task? (.run guarded cfg path source) = none := by
  simp only [task?, Input.staticReports] at h ⊢
  cases hread : (Grammar.readProgram cfg.room (scan source.toList).tokens).value? with
  | none => rfl
  | some program =>
    rw [hread] at h
    dsimp only
    split
    · rfl
    · next hclean =>
      simp only [Bool.or_eq_true, not_or, Bool.not_eq_true, Bool.not_eq_false',
        List.isEmpty_iff] at hclean
      obtain ⟨⟨-, hwalked⟩, hreports⟩ := hclean
      obtain ⟨hfront, hresolved⟩ := List.append_eq_nil_iff.1 hreports
      have hnone :=
        Walk.staticReports_eq_nil.2 ⟨hwalked, (walkProgram_eq hwalked).2.trans hresolved⟩
      simp [hfront, hnone] at h

theorem task?_evaluate_of_static (s : Session) (guarded : Bool)
    (h : (Input.evaluate cfg path source).staticReports ≠ []) :
    s.task? (.evaluate guarded cfg path source) = none := by
  simp only [task?, Input.staticReports] at h ⊢
  rcases hread : (Grammar.readExpression cfg.room (scan source.toList).tokens).value? with
    _ | _ | e
  · rfl
  · rfl
  · rw [hread] at h
    dsimp only
    split
    · rfl
    · next hclean =>
      simp only [Bool.or_eq_true, not_or, Bool.not_eq_true, Bool.not_eq_false',
        List.isEmpty_iff] at hclean
      obtain ⟨⟨-, hwalked⟩, hreports⟩ := hclean
      obtain ⟨hfront, hresolved⟩ := List.append_eq_nil_iff.1 hreports
      have hnone :=
        Walk.staticReports_eq_nil.2 ⟨hwalked, (walkExpression_eq hwalked).2.trans hresolved⟩
      simp [hfront, hnone] at h

/-- An accepted program is the task of its source. -/
theorem task?_run_of_accepted {s : Session} (hs : s.log.hadError = false)
    (h : ProgramAccepted cfg.room cfg.levels source program) (guarded : Bool) (path : String) :
    s.task? (.run guarded cfg path source) = some (cfg, .run (resolveProgram program).1) := by
  simp only [task?, h.read, h.walked, h.reports, hs]
  rfl

/-- An accepted expression is the task of its source. -/
theorem task?_evaluate_of_accepted {s : Session} (hs : s.log.hadError = false)
    (h : ExpressionAccepted cfg.room cfg.levels source e) (guarded : Bool) (path : String) :
    s.task? (.evaluate guarded cfg path source) = some (cfg, .eval (resolveExpression e).1) := by
  simp only [task?, h.read, h.walked, h.reports, hs]
  rfl

end Session

/-! ## Reports of a step -/

theorem Conduct.Stopped.reported {s : Session} {c : Conduct α} (h : c.Stopped s rs) :
    c.reported s = rs := by
  rw [Conduct.reported, h.reports, ← Array.length_toList, List.drop_left]

/-- A step that stopped with static reports. -/
theorem Conduct.Stopped.comesTo {s : Session} {c : Conduct α} (h : c.Stopped s rs) (hne : rs ≠ [])
    (hstatic : ∀ r ∈ rs, r.kind = .static) (ht : s.task? a = none) :
    s.ComesTo a c (c.reported s) := by
  rw [h.reported]
  exact .rejected hne hstatic ht h.printed h.memory

namespace Session

/-- What concluding a run adds to the log of a session, if the run ended without a fault. -/
inductive Concludes (s : Session) (r : Run) : Prop where
  | completed : r.ending = .value v →
    s.conclude r = ⟨.ok (), r.printed, { s with memory := r.memory }⟩ → Concludes s r
  | failed : r.ending = .failed f →
    s.conclude r = ⟨.ok (), r.printed, s.log.runtimeError token message, r.memory⟩ → Concludes s r
  | interrupted : (s.conclude r).answer = .error .interrupted → Concludes s r

theorem concludes (s : Session) {r : Run} (h : ∀ f, r.ending ≠ .failed (.fault f)) :
    s.Concludes r := by
  cases hr : r.ending with
  | value v => exact .completed hr (by rw [conclude, hr])
  | unfinished => exact .interrupted (by rw [conclude, hr])
  | failed f =>
    cases f with
    | error | overflow => exact .failed hr (by rw [conclude, hr])
    | fault f => exact absurd hr (h f)

/-- An expression has a text when its evaluation ends with a value. -/
theorem exists_text?_iff (r : Run) : (∃ text, r.text? = some text) ↔ ∃ v, r.ending = .value v := by
  cases hr : r.ending <;> simp [Run.text?, hr]

/-- What comes of the task of a source that nothing interrupts: the step is answered, and whether
anything is reported says both how the run ended and whether it counts as one gone wrong. -/
theorem comesTo_of_conclude {s : Session} {c : Conduct α} {answer : Unit → α}
    (ht : s.task? a = some (cfg, task))
    (hr : ∀ f, (s.memory.perform cfg.setting cfg.steps task).ending ≠ .failed (.fault f))
    (hclear : s.log.hadRuntimeError = false) (hlive : c.answer ≠ .error .interrupted)
    (hc : c =
      let done := (s.registered path source).conclude (s.memory.perform cfg.setting cfg.steps task)
      { done with answer := done.answer.map answer }) :
    c.guarded.1 = some (answer ()) ∧ s.ComesTo a c (c.reported s) ∧
      (c.session.log.hadRuntimeError = false ↔ c.reported s = []) ∧
      ((∃ v, (s.memory.perform cfg.setting cfg.steps task).ending = .value v) ↔
        c.reported s = []) := by
  cases (s.registered path source).concludes hr with
  | @completed v hv hdone =>
    have hanswer : c.answer = .ok (answer ()) := by simp only [hc, hdone, Except.map]
    have hlog : c.session.log = s.log.register path source := by
      simp only [hc, hdone]
      rfl
    have hreported : c.reported s = [] := by
      simp [Conduct.reported, Conduct.guarded, hanswer, hlog, Log.register]
    rw [hreported, hlog]
    exact ⟨by rw [Conduct.guarded, hanswer], .completed ht hv, iff_of_true hclear rfl,
      iff_of_true ⟨v, hv⟩ rfl⟩
  | @failed f token message hf hdone =>
    have hanswer : c.answer = .ok (answer ()) := by simp only [hc, hdone, Except.map]
    have hlog : c.session.log = (s.log.register path source).runtimeError token message := by
      simp only [hc, hdone]
      rfl
    have hreported : c.reported s = [.atRuntime token message] := by
      simp [Conduct.reported, Conduct.guarded, hanswer, hlog, Log.register, Log.runtimeError]
    have hvalue : ¬∃ v, (s.memory.perform cfg.setting cfg.steps task).ending = .value v := by
      rintro ⟨v, hv⟩
      cases hv.symm.trans hf
    rw [hreported, hlog]
    exact ⟨by rw [Conduct.guarded, hanswer], .failed ht hf (Report.kind_atRuntime ..),
      iff_of_false (by simp [Log.runtimeError]) (List.cons_ne_nil _ []),
      iff_of_false hvalue (List.cons_ne_nil _ [])⟩
  | interrupted hdone =>
    rw [hc] at hlive
    exact absurd (by simp only [hdone, Except.map]) hlive

end Session

/-- The answers of a session that is in use agree with its reports. When both flags are clear and
nothing interrupts the step, a step reports either only what is wrong with the text, and then
nothing is executed, or nothing, or the one error that its run ends with; a program is answered for
with success, and an expression with a text, exactly when nothing is reported. -/
theorem answers_match_reports (colored : Bool) (acts : List Act) (cfg : Config)
    (path source : String) :
    let s := (Session.start colored).after acts
    s.log.hadError = false → s.log.hadRuntimeError = false →
    ((s.run cfg path source).answer ≠ .error .interrupted →
      let c := s.run cfg path source
      s.ComesTo (.run true cfg path source) c (c.reported s) ∧
        (c.guarded.1 = some true ↔ c.reported s = [])) ∧
    ((s.evaluate cfg path source).answer ≠ .error .interrupted →
      let c := s.evaluate cfg path source
      s.ComesTo (.evaluate true cfg path source) c (c.reported s) ∧
        ((∃ text, c.guarded.1 = some (some text)) ↔ c.reported s = [])) := by
  intro s herror hruntime
  refine ⟨fun hlive => ?_, fun hlive => ?_⟩
  · by_cases hstatic : (Input.run cfg path source).staticReports = []
    · obtain ⟨program, haccepted⟩ := Input.accepted_of_staticReports hstatic
      have hending := Session.ending_of_program colored acts haccepted cfg.setting cfg.steps
      obtain ⟨hanswer, hcomes, hflag, -⟩ := Session.comesTo_of_conclude
        (Session.task?_run_of_accepted herror haccepted true path) hending hruntime hlive
        (Session.run_of_accepted haccepted herror path)
      refine ⟨hcomes, ?_⟩
      rw [hanswer, ← hflag, Session.run_of_accepted haccepted herror]
      simp
    · obtain ⟨hstopped, hanswer⟩ := Session.stopped_run herror hstatic
      refine ⟨hstopped.comesTo hstatic (Input.static_of_staticReports cfg path source)
        (s.task?_run_of_static true hstatic), iff_of_false hanswer ?_⟩
      rwa [hstopped.reported]
  · by_cases hstatic : (Input.evaluate cfg path source).staticReports = []
    · obtain ⟨e, haccepted⟩ := Input.accepted_of_expression hstatic
      have hending := Session.ending_of_expression colored acts haccepted cfg.setting cfg.steps
      obtain ⟨hanswer, hcomes, -, hvalue⟩ := Session.comesTo_of_conclude
        (Session.task?_evaluate_of_accepted herror haccepted true path) hending hruntime hlive
        (Session.evaluate_of_accepted haccepted herror path)
      refine ⟨hcomes, ?_⟩
      rw [hanswer, ← hvalue]
      simp only [Option.some.injEq]
      exact Session.exists_text?_iff _
    · obtain ⟨hstopped, hanswer⟩ := Session.stopped_evaluate herror hstatic
      refine ⟨hstopped.comesTo hstatic (Input.static_of_expression cfg path source)
        (s.task?_evaluate_of_static true hstatic), iff_of_false ?_ ?_⟩
      · rintro ⟨text, htext⟩
        rw [htext] at hanswer
        cases hanswer
      · rwa [hstopped.reported]

/-- A function that an earlier source declared, called where its result is used wrongly and where it
is not. -/
theorem answers_match_reports_of_call :
    let cfg : Config := ⟨40, 40, ⟨100, fun _ => 0⟩, 1000⟩
    let s := (Session.start false).after [.run true cfg "a.lox" "fun f(x) { return x; }"]
    let source := "print f(true); f(nil) - nil;"
    let c := s.run cfg "b.lox" source
    let c' := s.evaluate cfg "c.lox" "f(nil)"
    s.log.hadError = false ∧ s.log.hadRuntimeError = false ∧
      c.answer ≠ .error .interrupted ∧ c'.answer ≠ .error .interrupted ∧
      s.ComesTo (.run true cfg "b.lox" source) c (c.reported s) ∧
      (c.guarded.1 = some true ↔ c.reported s = []) ∧
      s.ComesTo (.evaluate true cfg "c.lox" "f(nil)") c' (c'.reported s) ∧
      ((∃ text, c'.guarded.1 = some (some text)) ↔ c'.reported s = []) := by
  have herror : ((Session.start false).after [.run true ⟨40, 40, ⟨100, fun _ => 0⟩, 1000⟩ "a.lox"
      "fun f(x) { return x; }"]).log.hadError = false := by decide +kernel
  have hruntime : ((Session.start false).after [.run true ⟨40, 40, ⟨100, fun _ => 0⟩, 1000⟩ "a.lox"
      "fun f(x) { return x; }"]).log.hadRuntimeError = false := by decide +kernel
  have hrun : (((Session.start false).after [.run true ⟨40, 40, ⟨100, fun _ => 0⟩, 1000⟩ "a.lox"
      "fun f(x) { return x; }"]).run ⟨40, 40, ⟨100, fun _ => 0⟩, 1000⟩ "b.lox"
      "print f(true); f(nil) - nil;").answer.isOk := by decide +kernel
  have hevaluate : (((Session.start false).after [.run true ⟨40, 40, ⟨100, fun _ => 0⟩, 1000⟩ "a.lox"
      "fun f(x) { return x; }"]).evaluate ⟨40, 40, ⟨100, fun _ => 0⟩, 1000⟩ "c.lox"
      "f(nil)").answer.isOk := by decide +kernel
  have hlive {α : Type} {answer : Except Escape α} (h : answer.isOk) :
      answer ≠ .error .interrupted := by
    rintro rfl
    cases h
  have hmatch := answers_match_reports false [.run true ⟨40, 40, ⟨100, fun _ => 0⟩, 1000⟩ "a.lox"
    "fun f(x) { return x; }"] ⟨40, 40, ⟨100, fun _ => 0⟩, 1000⟩
  have hfirst := (hmatch "b.lox" _ herror hruntime).1 (hlive hrun)
  have hsecond := (hmatch "c.lox" _ herror hruntime).2 (hlive hevaluate)
  exact ⟨herror, hruntime, hlive hrun, hlive hevaluate, hfirst.1, hfirst.2, hsecond.1, hsecond.2⟩

end LoxLang
