import LoxLang.Proofs.ResolutionTable

/-!
# Inputs with static errors

A source that gets a report before it would run, also one that is nested too deeply to be read or to
be resolved to its end, leaves no trace in its session (`rejected_input_leaves_no_trace`): nothing
is printed, the memory stays as it is (`Session.rejects`), every other input is answered as if the
source had never been there (`Session.Alike.responses`), and what the resolver wrote into the table
of the session before it gave the source up is recorded for nodes of that source alone
(`Session.recorded?_eq`).
-/

namespace LoxLang

/-! ## Inputs and responses -/

/-- A source given to a session, to be run as a program or evaluated as an expression. -/
inductive Input where
  | run (cfg : Config) (path source : String)
  | evaluate (cfg : Config) (path source : String)

/-- The answer to an input. There is none to a program whose escape was absorbed. -/
inductive Answer where
  | success (completed : Option Bool)
  | value (text : Option String)
deriving DecidableEq

/-- Whether the answer is that a program did not complete, or that an expression has no value. -/
def Answer.negative : Answer → Bool
  | success completed => completed ≠ some true
  | value text => text = none

/-- What can be seen of an input. -/
structure Response where
  answer : Answer
  output : String
  reports : List Report
  /-- The reports as they are shown, with the source lines that they quote. -/
  errorText : String
  globals : List (String × Value × String)

/-- What can be seen of a guarded conduct, and the session behind it with its flags cleared. -/
def Conduct.respond (s : Session) (answer : Option α → Answer) (c : Conduct α) :
    Response × Session :=
  let (a, s') := c.guarded
  (⟨answer a, c.output, s'.log.reports.toList.drop s.log.reports.size, s'.log.shownSince s.log,
    s'.globals⟩, s'.reset)

namespace Session

def respond (s : Session) : Input → Response × Session
  | .run cfg path source => (s.run cfg path source).respond s .success
  | .evaluate cfg path source => (s.evaluate cfg path source).respond s fun a => .value a.join

/-- The responses to inputs, one after the other. -/
def responses (s : Session) : List Input → List Response
  | [] => []
  | i :: rest => (s.respond i).1 :: (s.respond i).2.responses rest

/-- The session behind some inputs. -/
def behind (s : Session) (is : List Input) : Session := is.foldl (fun s i => (s.respond i).2) s

theorem responses_append (s : Session) (is rest : List Input) :
    s.responses (is ++ rest) = s.responses is ++ (s.behind is).responses rest := by
  induction is generalizing s with
  | nil => rfl
  | cons i is ih => exact congrArg _ (ih _)

end Session

/-- What is reported on a walk, also that it was stopped. -/
def Walk.staticReports (w : Walk α) : List Report :=
  w.reports ++ if w.stopped then [.nestedTooDeeply] else []

theorem Walk.staticReports_eq_nil {w : Walk α} :
    w.staticReports = [] ↔ w.stopped = false ∧ w.reports = [] := by
  unfold staticReports
  cases w.stopped <;> simp

/-- The reports that a source gets before it would run, in order. It is resolved only if it was
scanned and read without a report. -/
def Input.staticReports : Input → List Report
  | .run cfg _ source =>
    let scanned := scan source.toList
    let reading := Grammar.readProgram cfg.room scanned.tokens
    let front := scanned.reports ++ reading.reports
    match reading.value? with
    | none => front ++ [.nestedTooDeeply]
    | some program => if front = [] then (walkProgram cfg.levels program).staticReports else front
  | .evaluate cfg _ source =>
    let scanned := scan source.toList
    let reading := Grammar.readExpression cfg.room scanned.tokens
    let front := scanned.reports ++ reading.reports
    match reading.value? with
    | none => front ++ [.nestedTooDeeply]
    | some none => front
    | some (some e) => if front = [] then (walkExpression cfg.levels e).staticReports else front

/-! ## Logs that differ in what came before -/

/-- Two logs that are the same but for the sources registered and the text shown before. -/
structure Log.Alike (l l' : Log) : Prop where
  colored : l'.colored = l.colored
  reports : l'.reports = l.reports
  hadError : l'.hadError = l.hadError
  hadRuntimeError : l'.hadRuntimeError = l.hadRuntimeError

/-- Two logs that were alike when so much had been shown, and have quoted the same source and shown
the same since. -/
structure Log.Parallel (before before' : String) (l l' : Log) : Prop extends Log.Alike l l' where
  source : l'.source = l.source
  shown : ∃ text, l.shown = before ++ text ∧ l'.shown = before' ++ text

namespace Log

theorem Alike.register {l l' : Log} (h : l.Alike l') (path source : String) :
    Log.Parallel l.shown l'.shown (l.register path source) (l'.register path source) where
  colored := h.colored
  reports := h.reports
  hadError := h.hadError
  hadRuntimeError := h.hadRuntimeError
  source := by simp [Log.source, Log.register]
  shown := ⟨"", String.append_empty.symm, String.append_empty.symm⟩

namespace Parallel

variable {before before' : String} {l l' : Log}

theorem emit (h : Log.Parallel before before' l l') (r : Report) :
    Log.Parallel before before' (l.emit r) (l'.emit r) where
  colored := h.colored
  reports := by rw [reports_emit, reports_emit, h.reports]
  hadError := h.hadError
  hadRuntimeError := h.hadRuntimeError
  source := h.source
  shown := by
    obtain ⟨text, hl, hl'⟩ := h.shown
    have hdisplay : l'.display r = l.display r := by
      simp only [display, diagnose?, h.colored, h.source]
    exact ⟨text ++ l.display r, by rw [shown_emit, hl, String.append_assoc],
      by rw [shown_emit, hl', hdisplay, String.append_assoc]⟩

theorem complain (h : Log.Parallel before before' l l') (r : Report) :
    Log.Parallel before before' (l.complain r) (l'.complain r) := by
  have hflag : Log.Parallel before before' { l with hadError := true }
      { l' with hadError := true } :=
    ⟨⟨h.colored, h.reports, rfl, h.hadRuntimeError⟩, h.source, h.shown⟩
  exact hflag.emit r

theorem complainAll (h : Log.Parallel before before' l l') (rs : List Report) :
    Log.Parallel before before' (l.complainAll rs) (l'.complainAll rs) := by
  induction rs generalizing l l' with
  | nil => exact h
  | cons r rs ih => exact ih (h.complain r)

/-- A report with which the run counts as gone wrong. -/
theorem fail (h : Log.Parallel before before' l l') (r : Report) :
    Log.Parallel before before' ({ l with hadRuntimeError := true }.emit r)
      ({ l' with hadRuntimeError := true }.emit r) := by
  have hflag : Log.Parallel before before' { l with hadRuntimeError := true }
      { l' with hadRuntimeError := true } :=
    ⟨⟨h.colored, h.reports, h.hadError, rfl⟩, h.source, h.shown⟩
  exact hflag.emit r

theorem absorb (h : Log.Parallel before before' l l') (e : Escape) :
    Log.Parallel before before' (l.absorb e) (l'.absorb e) := by
  cases e with
  | exit => exact h
  | tooDeep => exact h.complain _
  | unreadable => exact h.emit _
  | interrupted | misread | runtime | stackOverflow | internal | unknown => exact h.fail _

theorem reset (h : Log.Parallel before before' l l') : l.reset.Alike l'.reset :=
  ⟨h.colored, rfl, rfl, rfl⟩

end Parallel

/-- What was shown since a log is what its text was lengthened by. -/
theorem shownSince_of_append {l earlier : Log} (h : l.shown = earlier.shown ++ text) :
    l.shownSince earlier = text := by
  rw [shownSince, h, String.toList_append, ← String.length_toList, List.drop_left,
    String.ofList_toList]

end Log

/-! ## Sessions that differ in what came before -/

/-- Two sessions with the same memory that will answer alike. -/
structure Session.Alike (s s' : Session) : Prop where
  log : s.log.Alike s'.log
  memory : s'.memory = s.memory

structure Session.Parallel (before before' : String) (s s' : Session) : Prop where
  log : Log.Parallel before before' s.log s'.log
  memory : s'.memory = s.memory

/-- Two conducts that cannot be told apart. -/
structure Conduct.Parallel (before before' : String) (c c' : Conduct α) : Prop where
  answer : c'.answer = c.answer
  printed : c'.printed = c.printed
  session : Session.Parallel before before' c.session c'.session

/-- Conducts that cannot be told apart are guarded alike. -/
theorem Conduct.Parallel.guarded {c c' : Conduct α} (h : Conduct.Parallel before before' c c') :
    c'.guarded.1 = c.guarded.1 ∧
      Session.Parallel before before' c.guarded.2 c'.guarded.2 := by
  simp only [Conduct.guarded, h.answer]
  cases c.answer with
  | ok a => exact ⟨rfl, h.session⟩
  | error e => exact ⟨rfl, h.session.log.absorb e, h.session.memory⟩

namespace Session.Parallel

variable {before before' : String} {s s' : Session}

theorem report (h : Session.Parallel before before' s s') (rs : List Report) :
    Session.Parallel before before' (s.report rs) (s'.report rs) :=
  ⟨h.log.complainAll rs, h.memory⟩

theorem stop (h : Session.Parallel before before' s s') (answer : Except Escape α) :
    Conduct.Parallel before before' (s.stop answer) (s'.stop answer) := ⟨rfl, rfl, h⟩

theorem conclude (h : Session.Parallel before before' s s') (r : Run) :
    Conduct.Parallel before before' (s.conclude r) (s'.conclude r) := by
  have hmemory : Session.Parallel before before' { s with memory := r.memory }
      { s' with memory := r.memory } := ⟨h.log, rfl⟩
  unfold Session.conclude
  dsimp only
  split
  · exact ⟨rfl, rfl, hmemory⟩
  · exact ⟨rfl, rfl, h.log.fail _, rfl⟩
  · exact ⟨rfl, rfl, h.log.fail _, rfl⟩
  · exact ⟨rfl, rfl, hmemory⟩
  · exact ⟨rfl, rfl, hmemory⟩

end Session.Parallel

namespace Session.Alike

variable {s s' : Session}

theorem scanSource (h : s.Alike s') (path source : String) :
    (s'.scanSource path source).1 = (s.scanSource path source).1 ∧
      Session.Parallel s.log.shown s'.log.shown (s.scanSource path source).2
        (s'.scanSource path source).2 := by
  have hregistered : Session.Parallel s.log.shown s'.log.shown
      { s with log := s.log.register path source }
      { s' with log := s'.log.register path source } :=
    ⟨h.log.register path source, h.memory⟩
  exact ⟨rfl, hregistered.report _⟩

theorem run (h : s.Alike s') (cfg : Config) (path source : String) :
    Conduct.Parallel s.log.shown s'.log.shown (s.run cfg path source)
      (s'.run cfg path source) := by
  obtain ⟨-, hscan⟩ := h.scanSource path source
  simp only [Session.run]
  generalize (s.scanSource path source).2 = t at hscan
  generalize (s'.scanSource path source).2 = t' at hscan
  have htokens : (s'.scanSource path source).1 = (s.scanSource path source).1 := rfl
  rw [htokens]
  generalize Grammar.readProgram cfg.room (s.scanSource path source).1 = reading
  have hread := hscan.report reading.reports
  cases reading.value? with
  | none => exact hread.stop _
  | some program =>
    dsimp only
    generalize walkProgram cfg.levels program = walk
    have hresolved := hread.report walk.reports
    rw [hread.log.hadError, hresolved.log.hadError, hresolved.memory]
    split
    · exact hread.stop _
    · split
      · exact hresolved.stop _
      · split
        · exact hresolved.stop _
        · have hdone := hresolved.conclude (((t.report reading.reports).report
            walk.reports).memory.interpret cfg.setting cfg.steps walk.tree)
          exact ⟨by simp only [hdone.answer, hdone.session.log.hadRuntimeError], hdone.printed,
            hdone.session⟩

theorem evaluate (h : s.Alike s') (cfg : Config) (path source : String) :
    Conduct.Parallel s.log.shown s'.log.shown (s.evaluate cfg path source)
      (s'.evaluate cfg path source) := by
  obtain ⟨-, hscan⟩ := h.scanSource path source
  simp only [Session.evaluate]
  generalize (s.scanSource path source).2 = t at hscan
  generalize (s'.scanSource path source).2 = t' at hscan
  have htokens : (s'.scanSource path source).1 = (s.scanSource path source).1 := rfl
  rw [htokens]
  generalize Grammar.readExpression cfg.room (s.scanSource path source).1 = reading
  have hread := hscan.report reading.reports
  cases reading.value? with
  | none => exact hread.stop _
  | some e? =>
    cases e? with
    | none => exact hread.stop _
    | some e =>
      dsimp only
      generalize walkExpression cfg.levels e = walk
      have hresolved := hread.report walk.reports
      rw [hread.log.hadError, hresolved.log.hadError, hresolved.memory]
      split
      · exact hread.stop _
      · split
        · exact hresolved.stop _
        · split
          · exact hresolved.stop _
          · have hdone := hresolved.conclude (((t.report reading.reports).report
              walk.reports).memory.evaluate cfg.setting cfg.steps walk.tree)
            exact ⟨by simp only [hdone.answer], hdone.printed, hdone.session⟩

/-- Conducts that cannot be told apart are responded to alike. -/
theorem respond_conduct (h : s.Alike s') {c c' : Conduct α}
    (hc : Conduct.Parallel s.log.shown s'.log.shown c c') (answer : Option α → Answer) :
    (c'.respond s' answer).1 = (c.respond s answer).1 ∧
      (c.respond s answer).2.Alike (c'.respond s' answer).2 := by
  obtain ⟨ha, hguarded⟩ := hc.guarded
  refine ⟨?_, hguarded.log.reset, hguarded.memory⟩
  obtain ⟨text, htext, htext'⟩ := hguarded.log.shown
  simp only [Conduct.respond, ha, Conduct.output, hc.printed, hguarded.log.reports,
    h.log.reports, Log.shownSince_of_append htext, Log.shownSince_of_append htext', globals,
    hguarded.memory]

theorem respond (h : s.Alike s') (i : Input) :
    (s'.respond i).1 = (s.respond i).1 ∧ (s.respond i).2.Alike (s'.respond i).2 := by
  cases i with
  | run cfg path source => exact h.respond_conduct (h.run cfg path source) _
  | evaluate cfg path source => exact h.respond_conduct (h.evaluate cfg path source) _

theorem behind (h : s.Alike s') (is : List Input) : (s.behind is).Alike (s'.behind is) := by
  induction is generalizing s s' with
  | nil => exact h
  | cons i is ih => exact ih (h.respond i).2

/-- Sessions that are alike respond alike to all inputs. -/
theorem responses (h : s.Alike s') (is : List Input) : s'.responses is = s.responses is := by
  induction is generalizing s s' with
  | nil => rfl
  | cons i is ih =>
    obtain ⟨hresponse, hbehind⟩ := h.respond i
    rw [Session.responses, Session.responses, hresponse, ih hbehind]

end Session.Alike

/-! ## The table behind inputs -/

/-- An input is given to a session, and its escape is absorbed by the log or not. -/
def Input.act (guarded : Bool) : Input → Act
  | run cfg path source => .run guarded cfg path source
  | evaluate cfg path source => .evaluate guarded cfg path source

/-- What a session does with an input. -/
def Input.acts (i : Input) : List Act := [i.act true, .reset]

/-- The number of scopes that is recorded behind some inputs for a reference of one of them, by its
place there. -/
def Session.recorded? (s : Session) (is : List Input) (k place : Nat) : Option Nat :=
  s.table (is.flatMap Input.acts) ⟨2 * k, place⟩

namespace Session

theorem respond_eq_after (s : Session) (i : Input) : (s.respond i).2 = s.after i.acts := by
  cases i <;> rfl

theorem behind_eq_after (s : Session) (is : List Input) :
    s.behind is = s.after (is.flatMap Input.acts) := by
  induction is generalizing s with
  | nil => rfl
  | cons i is ih =>
    rw [List.flatMap_cons, after, List.foldl_append]
    exact (ih _).trans (congrArg (after · _) (s.respond_eq_after i))

theorem length_acts (is : List Input) : (is.flatMap Input.acts).length = 2 * is.length := by
  induction is with
  | nil => rfl
  | cons i is ih => simp only [List.flatMap_cons, List.length_append, ih, Input.acts,
      List.length_cons, List.length_nil]; omega

theorem recorded?_append (s : Session) (before : List Input) (i : Input) (after : List Input)
    (place : Nat) :
    s.recorded? (before ++ i :: after) before.length place =
      ((s.behind before).resolved (i.act true))[place]?.bind (·.2.hops) := by
  have hacts : (before ++ i :: after).flatMap Input.acts =
      before.flatMap Input.acts ++ [i.act true] ++ .reset :: after.flatMap Input.acts := by
    simp [Input.acts]
  have hnumber : 2 * before.length = (before.flatMap Input.acts).length :=
    (length_acts before).symm
  rw [recorded?, hacts, table_append s (by simp [hnumber]), table_concat s hnumber, behind_eq_after]

/-- What is recorded for an input is what was resolved when its turn came. -/
theorem recorded?_eq (s : Session) (is : List Input) (k place : Nat) :
    s.recorded? is k place =
      is[k]?.bind fun i =>
        ((s.behind (is.take k)).resolved (i.act true))[place]?.bind (·.2.hops) := by
  cases hk : is[k]? with
  | none =>
    have hlength := List.getElem?_eq_none_iff.1 hk
    refine recordFrom_of_ge _ ?_
    rw [length_acts, Nat.zero_add]
    exact Nat.mul_le_mul_left 2 hlength
  | some i =>
    obtain ⟨hlt, rfl⟩ := List.getElem?_eq_some_iff.1 hk
    have hparts : is = is.take k ++ is[k] :: is.drop (k + 1) := by simp
    have hentry := s.recorded?_append (is.take k) is[k] (is.drop (k + 1)) place
    rwa [← hparts, List.length_take, Nat.min_eq_left (Nat.le_of_lt hlt)] at hentry

/-- What is resolved depends on the session only in whether it is to resolve anything. -/
theorem Alike.resolved {s s' : Session} (h : s.Alike s') (a : Act) :
    s'.resolved a = s.resolved a := by
  have hroot : s'.root? a = s.root? a := by
    cases a <;> simp only [root?, h.log.hadError]
  simp only [Session.resolved, hroot]

end Session

/-! ## Inputs with static errors -/

theorem Log.colored_complainAll (rs : List Report) (log : Log) :
    (log.complainAll rs).colored = log.colored := by
  induction rs generalizing log with
  | nil => rfl
  | cons r rs ih => rw [complainAll_cons, ih]; rfl

/-- A conduct that stopped in a session before anything was run, with so many reports. -/
structure Conduct.Stopped (s : Session) (rs : List Report) (c : Conduct α) : Prop where
  printed : c.printed = #[]
  memory : c.guarded.2.memory = s.memory
  colored : c.guarded.2.log.colored = s.log.colored
  reports : c.guarded.2.log.reports.toList = s.log.reports.toList ++ rs

namespace Session

/-- The session in which a source is judged. -/
def registered (s : Session) (path source : String) : Session :=
  { s with log := s.log.register path source }

theorem report_report (s : Session) (rs qs : List Report) :
    (s.report rs).report qs = s.report (rs ++ qs) := by
  simp only [report, Log.complainAll_append]

/-- A source is rejected if there is a report on it. -/
theorem hadError_report {s : Session} (hs : s.log.hadError = false) (path source : String) :
    ((s.registered path source).report rs).log.hadError = true ↔ rs ≠ [] := by
  simp [report, registered, Log.hadError_complainAll, Log.register, hs]

theorem stopped_ok (s : Session) (path source : String) (rs : List Report) (a : α) :
    Conduct.Stopped s rs (((s.registered path source).report rs).stop (.ok a)) where
  printed := rfl
  memory := rfl
  colored := Log.colored_complainAll rs _
  reports := Log.toList_reports_complainAll rs _

theorem stopped_tooDeep (s : Session) (path source : String) (rs : List Report) :
    Conduct.Stopped s (rs ++ [.nestedTooDeeply])
      (((s.registered path source).report rs).stop (α := α) (.error .tooDeep)) where
  printed := rfl
  memory := rfl
  colored := Log.colored_complainAll rs _
  reports := by
    rw [← List.append_assoc, ← show _ = s.log.reports.toList ++ rs from
      Log.toList_reports_complainAll rs (s.registered path source).log]
    exact Array.toList_push

theorem scanSource_eq (s : Session) (path source : String) :
    s.scanSource path source = ((scan source.toList).tokens,
      (s.registered path source).report (scan source.toList).reports) := rfl

/-- Nothing is run behind a walk with reports, or one that was stopped. -/
theorem stopped_walk {s : Session} (hs : s.log.hadError = false) (path source : String)
    {walk : Walk α} (h : walk.staticReports ≠ []) (a : β) (c : Conduct β) :
    let behind := (s.registered path source).report walk.reports
    let c' := if walk.stopped then behind.stop (.error .tooDeep)
      else if behind.log.hadError then behind.stop (.ok a) else c
    c'.Stopped s walk.staticReports ∧ (c'.guarded.1 = none ∨ c'.guarded.1 = some a) := by
  unfold Walk.staticReports at h ⊢
  cases hstopped : walk.stopped with
  | true =>
    exact ⟨s.stopped_tooDeep path source _, .inl rfl⟩
  | false =>
    rw [hstopped] at h
    simp only [Bool.false_eq_true, if_false, List.append_nil] at h ⊢
    rw [if_pos ((hadError_report hs path source).2 h)]
    exact ⟨s.stopped_ok path source _ a, .inr rfl⟩

/-- A program with static errors is not run. -/
theorem stopped_run {s : Session} (hs : s.log.hadError = false) {cfg : Config}
    {path source : String} (h : (Input.run cfg path source).staticReports ≠ []) :
    (s.run cfg path source).Stopped s (Input.run cfg path source).staticReports ∧
      (s.run cfg path source).guarded.1 ≠ some true := by
  simp only [run, scanSource_eq, report_report, Input.staticReports] at h ⊢
  cases hread : (Grammar.readProgram cfg.room (scan source.toList).tokens).value? with
  | none => exact ⟨s.stopped_tooDeep path source _, by rintro ⟨⟩⟩
  | some program =>
    rw [hread] at h
    generalize (scan source.toList).reports ++
      (Grammar.readProgram cfg.room (scan source.toList).tokens).reports = front at h ⊢
    have hfront : ((s.registered path source).report front).log.hadError = true ↔ front ≠ [] :=
      hadError_report hs path source
    dsimp only at h ⊢
    by_cases hnil : front = []
    · subst hnil
      rw [if_pos rfl] at h ⊢
      rw [if_neg fun he => absurd (hfront.1 he) (by simp), List.nil_append]
      obtain ⟨hstopped, hanswer⟩ := stopped_walk hs path source h false _
      exact ⟨hstopped, by rcases hanswer with he | he <;> rw [he] <;> simp⟩
    · rw [if_neg hnil, if_pos (hfront.2 hnil)]
      exact ⟨s.stopped_ok path source _ _, by rintro ⟨⟩⟩

/-- An expression with static errors is not evaluated. -/
theorem stopped_evaluate {s : Session} (hs : s.log.hadError = false) {cfg : Config}
    {path source : String} (h : (Input.evaluate cfg path source).staticReports ≠ []) :
    (s.evaluate cfg path source).Stopped s (Input.evaluate cfg path source).staticReports ∧
      (s.evaluate cfg path source).guarded.1.join = none := by
  simp only [evaluate, scanSource_eq, report_report, Input.staticReports] at h ⊢
  match hread : (Grammar.readExpression cfg.room (scan source.toList).tokens).value? with
  | none => exact ⟨s.stopped_tooDeep path source _, rfl⟩
  | some none => exact ⟨s.stopped_ok path source _ _, rfl⟩
  | some (some e) =>
    rw [hread] at h
    generalize (scan source.toList).reports ++
      (Grammar.readExpression cfg.room (scan source.toList).tokens).reports = front at h ⊢
    have hfront : ((s.registered path source).report front).log.hadError = true ↔ front ≠ [] :=
      hadError_report hs path source
    dsimp only at h ⊢
    by_cases hnil : front = []
    · subst hnil
      rw [if_pos rfl] at h ⊢
      rw [if_neg fun he => absurd (hfront.1 he) (by simp), List.nil_append]
      obtain ⟨hstopped, hanswer⟩ := stopped_walk hs path source h none _
      exact ⟨hstopped, by rcases hanswer with he | he <;> rw [he] <;> rfl⟩
    · rw [if_neg hnil, if_pos (hfront.2 hnil)]
      exact ⟨s.stopped_ok path source _ _, rfl⟩

end Session

/-- How a session responds to an input with static errors: it prints nothing, and it goes on as if
it had only been reset. -/
structure Session.Rejects (s : Session) (i : Input) : Prop where
  answer : (s.respond i).1.answer.negative = true
  output : (s.respond i).1.output = ""
  reports : (s.respond i).1.reports = i.staticReports
  memory : (s.respond i).2.memory = s.memory
  globals : (s.respond i).1.globals = s.globals
  reset : s.reset.Alike (s.respond i).2

theorem Conduct.Stopped.rejects {s : Session} {c : Conduct α} (h : c.Stopped s rs)
    (answer : Option α → Answer) (hr : s.respond i = c.respond s answer)
    (ha : (answer c.guarded.1).negative = true) (hrs : rs = i.staticReports) : s.Rejects i where
  answer := by rw [hr]; exact ha
  output := by
    rw [hr]
    simp only [Conduct.respond, Conduct.output, h.printed]
    rfl
  reports := by
    rw [hr]
    simp only [Conduct.respond, h.reports, ← Array.length_toList, List.drop_left, hrs]
  memory := by rw [hr]; exact h.memory
  globals := by
    rw [hr]
    simp only [Conduct.respond, Session.globals, h.memory]
  reset := by rw [hr]; exact ⟨⟨h.colored, rfl, rfl, rfl⟩, h.memory⟩

theorem Session.rejects {s : Session} (hs : s.log.hadError = false) {i : Input}
    (h : i.staticReports ≠ []) : s.Rejects i := by
  cases i with
  | run cfg path source =>
    obtain ⟨hstopped, hanswer⟩ := stopped_run hs h
    exact hstopped.rejects .success rfl (decide_eq_true hanswer) rfl
  | evaluate cfg path source =>
    obtain ⟨hstopped, hanswer⟩ := stopped_evaluate hs h
    exact hstopped.rejects (fun a => .value a.join) rfl (decide_eq_true hanswer) rfl

theorem Conduct.reset_respond (s : Session) (answer : Option α → Answer) (c : Conduct α) :
    (c.respond s answer).2.reset = (c.respond s answer).2 := rfl

/-- Behind every input the flags are clear. -/
theorem Session.reset_behind {s : Session} (hs : s.reset = s) (is : List Input) :
    (s.behind is).reset = s.behind is := by
  induction is generalizing s with
  | nil => exact hs
  | cons i is ih =>
    refine ih ?_
    cases i <;> exact Conduct.reset_respond ..

/-- An input with static errors takes no part in what is recorded for the others. -/
theorem Session.recorded?_of_rejects {s : Session} {before : List Input} {i : Input}
    (h : (s.behind before).Alike ((s.behind before).respond i).2) (after : List Input)
    (k place : Nat) :
    s.recorded? (before ++ i :: after) (if k < before.length then k else k + 1) place =
      s.recorded? (before ++ after) k place := by
  rw [recorded?_eq, recorded?_eq]
  split
  · next hk =>
    rw [List.getElem?_append_left hk, List.getElem?_append_left hk,
      List.take_append_of_le_length (Nat.le_of_lt hk),
      List.take_append_of_le_length (Nat.le_of_lt hk)]
  · next hk =>
    obtain ⟨j, rfl⟩ := Nat.exists_eq_add_of_le (Nat.le_of_not_lt hk)
    have halike := h.behind (after.take j)
    have hbehind (is : List Input) : s.behind (before ++ is) = (s.behind before).behind is :=
      List.foldl_append
    rw [Nat.add_assoc, List.getElem?_append_right (by omega), List.getElem?_append_right (by omega),
      List.take_length_add_append, List.take_length_add_append, hbehind, hbehind]
    simp only [Nat.add_sub_cancel_left, List.getElem?_cons_succ, List.take_succ_cons]
    exact congrArg _ (funext fun a => by rw [← halike.resolved (a.act true)]; rfl)

/-- In a session whose flags are cleared behind every input, an input with static errors prints
nothing, is answered in the negative, gets its static reports and no others, and leaves the memory
as it was, with all frames, instances and globals. Without it, every other input gets the same
response: the same answer, output, reports, error text and globals. The numbers that the resolver
has recorded for the references of the other inputs are the same, too. -/
theorem rejected_input_leaves_no_trace {s : Session} (hs : s.reset = s) (before after : List Input)
    {i : Input} (h : i.staticReports ≠ []) :
    let here := s.behind before
    let response := (here.respond i).1
    response.answer.negative = true ∧ response.output = "" ∧ response.reports = i.staticReports ∧
      (here.respond i).2.memory = here.memory ∧ response.globals = here.globals ∧
      s.responses (before ++ i :: after) =
        s.responses before ++ response :: here.responses after ∧
      s.responses (before ++ after) = s.responses before ++ here.responses after ∧
      ∀ k place,
        s.recorded? (before ++ i :: after) (if k < before.length then k else k + 1) place =
          s.recorded? (before ++ after) k place := by
  have hreset : (s.behind before).reset = s.behind before := Session.reset_behind hs before
  have hclean : (s.behind before).log.hadError = false := (congrArg (·.log.hadError) hreset).symm
  obtain ⟨hanswer, houtput, hreports, hmemory, hglobals, halike⟩ := Session.rejects hclean h
  rw [hreset] at halike
  refine ⟨hanswer, houtput, hreports, hmemory, hglobals, ?_, s.responses_append ..,
    Session.recorded?_of_rejects halike after⟩
  rw [Session.responses_append, Session.responses, halike.responses]

/-- Between a function's declaration and its call, a program that is nested too deeply for the
resolver is as if it were not there, although the number of one of its references is recorded. -/
theorem rejected_input_leaves_no_trace_between :
    let cfg : Config := ⟨40, 40, ⟨100, fun _ => 0⟩, 1000⟩
    let s := Session.start false
    let before := [Input.run cfg "a.lox" "fun f(x) { return x; } var kept = f;"]
    let after := [Input.evaluate cfg "c.lox" "f(kept)"]
    let i := Input.run { cfg with levels := 3 } "b.lox" "kept = nil; { var f; f; !!f; }"
    (i.staticReports = [.nestedTooDeeply] ∧ s.recorded? (before ++ i :: after) 1 1 = some 0 ∧
      s.recorded? (before ++ i :: after) 1 2 = none) ∧
    s.responses (before ++ i :: after) =
      s.responses before ++ ((s.behind before).respond i).1 :: (s.behind before).responses after ∧
    s.responses (before ++ after) = s.responses before ++ (s.behind before).responses after ∧
    ∀ place,
      s.recorded? (before ++ i :: after) 2 place = s.recorded? (before ++ after) 1 place := by
  intro cfg s before after i
  have hi : i.staticReports = [.nestedTooDeeply] := by decide +kernel
  have hentries : s.recorded? (before ++ i :: after) 1 1 = some 0 ∧
      s.recorded? (before ++ i :: after) 1 2 = none := by
    decide +kernel
  obtain ⟨-, -, -, -, -, hwith, hwithout, hrecorded⟩ :=
    rejected_input_leaves_no_trace (s := s) rfl before after (i := i) (by simp [hi])
  exact ⟨⟨hi, hentries⟩, hwith, hwithout, hrecorded 1⟩

/-- A source that is nested too deeply is one with a static error. -/
example : (Input.evaluate ⟨3, 3, ⟨100, fun _ => 0⟩, 1000⟩ "a.lox" "((((nil))))").staticReports =
    [.nestedTooDeeply] := by
  decide +kernel

end LoxLang
