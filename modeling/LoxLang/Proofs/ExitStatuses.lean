import Mathlib.Data.Nat.Find
import LoxLang.CommandLine.Program
import LoxLang.Proofs.LogFlags
import LoxLang.Proofs.RejectedInputs
import LoxLang.Proofs.StaticAcceptance
import LoxLang.Proofs.Parsing.Progress
import LoxLang.Proofs.Piecewise.Accepting
import LoxLang.Proofs.Piecewise.Interpreting

/-!
# What the exit status of a script says

The flags of a log say nothing but what its reports are (`Log.Flagged`), so the status can be read
off the reports: a script that cannot be read gets the one report that says so, a source that is
rejected gets static reports and nothing else, and a source that is accepted gets no report, or the
one with which its run stops (`verdict_scriptConduct`). A run that comes to its end has executed the
statements of the program one after the other (`Machine.executes_all`).
-/

namespace LoxLang

/-! ## Statements executed in order -/

namespace Machine

variable {s : Setting} {m : Machine}

/-- Within so many steps a statement is executed to its end: it is taken in hand while those behind
it wait, they wait as long as it runs, and then it is done, neither returned from nor failed. -/
def Executes (s : Setting) (m : Machine) (n : Nat) (t : Stmt) (behind : List Stmt) : Prop :=
  ∃ i j, i ≤ j ∧ j ≤ n ∧
    (m.run s i).control = .exec t ∧ (m.run s i).stack.items = [.rest behind] ∧
    (∀ k, i ≤ k → k ≤ j → [.rest behind] <:+ (m.run s k).stack.items) ∧
    (∃ v, (m.run s j).control = .value v) ∧ (m.run s j).stack.items = [.rest behind]

/-- A `return` or a failure on its way, with no call waiting to receive it. -/
structure Adrift (m : Machine) : Prop where
  control : (∃ v, m.control = .returning v) ∨ ∃ f, m.control = .failing f
  stack : ∀ caller result, .activation caller result ∉ m.stack.items

theorem Adrift.step (h : m.Adrift) : (m.step s).Adrift := by
  obtain ⟨control, stack, frame, heap, printed, callToken⟩ := m
  obtain ⟨hc, hs⟩ := h
  cases hpop : stack.pop? with
  | none =>
    rcases hc with ⟨v, rfl⟩ | ⟨f, rfl⟩
    · simp only [Machine.step, hpop]
      exact ⟨.inr ⟨_, rfl⟩, hs⟩
    · simp only [Machine.step, hpop]
      exact ⟨.inr ⟨_, rfl⟩, hs⟩
  | some popped =>
    obtain ⟨w, rest⟩ := popped
    rw [Stack.items_of_pop? hpop] at hs
    have hrest (caller result) : .activation caller result ∉ rest.items := fun h =>
      hs caller result (List.mem_cons_of_mem _ h)
    rcases hc with ⟨v, rfl⟩ | ⟨f, rfl⟩
    · simp only [Machine.step, hpop]
      cases w with
      | activation caller result => exact absurd List.mem_cons_self (hs caller result)
      | _ => exact ⟨.inl ⟨v, rfl⟩, hrest⟩
    · simp only [Machine.step, hpop]
      cases w with
      | activation caller result => exact absurd List.mem_cons_self (hs caller result)
      | _ => exact ⟨.inr ⟨f, rfl⟩, hrest⟩

/-- What nothing receives does not end with a value. -/
theorem Adrift.ending_ne (h : m.Adrift) (n : Nat) (v : Value) :
    (m.run s n).ending ≠ .value v := by
  induction n generalizing m with
  | zero =>
    rw [run, ending]
    rcases h.control with ⟨v, hc⟩ | ⟨f, hc⟩ <;> rw [hc] <;> split <;> simp_all
  | succ n ih =>
    rw [run]
    split
    · rw [ending]
      rcases h.control with ⟨v, hc⟩ | ⟨f, hc⟩ <;> rw [hc] <;> split <;> simp_all
    · exact ih h.step

theorem items_of_ending (he : m.ending = .value v) : m.stack.items = [] := by
  unfold ending at he
  split at he <;> first | assumption | cases he

/-- A run that ends has got through with what was begun while something waited. -/
theorem first_over (hs : m.stack.items = base) (hne : base ≠ [])
    (he : (m.run s n).ending = .value v) :
    ∃ k ≤ n, (m.run s k).isOver base.length = true ∧
      ∀ j < k, (m.run s j).isOver base.length = false := by
  have hex : ∃ k, k < n ∧ (m.run s k).isOver base.length = true := by
    by_contra hno
    have hleads : (m.run s n).Leads base m.frame := by
      refine Leads.run (hs ▸ Leads.start) n (.inr fun k hk => ?_)
      simpa using fun h => hno ⟨k, hk, h⟩
    obtain ⟨above, hitems, -⟩ := hleads
    rw [items_of_ending he] at hitems
    exact hne (List.append_eq_nil_iff.1 hitems.symm).2
  classical
  refine ⟨Nat.find hex, (Nat.find_spec hex).1.le, (Nat.find_spec hex).2, fun j hj => ?_⟩
  have hmin := Nat.find_min hex hj
  have hlt := (Nat.find_spec hex).1
  simpa [show j < n by omega] using hmin

theorem Executes.later (h : (m.run s k).Executes s n t behind) : m.Executes s (k + n) t behind := by
  obtain ⟨i, j, hij, hjn, hexec, hwait, hall, hdone, hend⟩ := h
  refine ⟨k + i, k + j, by omega, by omega, ?_, ?_, fun l hl hl' => ?_, ?_, ?_⟩
  · rwa [run_add]
  · rwa [run_add]
  · have hmid := hall (l - k) (by omega) (by omega)
    rwa [← run_add, show k + (l - k) = l by omega] at hmid
  · rwa [run_add]
  · rwa [run_add]

theorem Executes.mono (h : m.Executes s k t behind) (hk : k ≤ n) : m.Executes s n t behind := by
  obtain ⟨i, j, hij, hjk, hrest⟩ := h
  exact ⟨i, j, hij, hjk.trans hk, hrest⟩

/-- A run of statements that ends has executed the first one to its end, and goes on with the
others. -/
theorem first_executes (hm : m.control = .run (t :: behind)) (hs : m.stack.items = [])
    (he : (m.run s n).ending = .value v) :
    ∃ j, j + 1 ≤ n ∧ m.Executes s j t behind ∧
      (m.run s (j + 1)).control = .run behind ∧ (m.run s (j + 1)).stack.items = [] := by
  have hlive : ¬ m.halted := by simp [halted, hm]
  have hrun (n : Nat) : m.run s (n + 1) = (m.await s (.rest behind) (.exec t)).run s n := by
    rw [run, if_neg hlive, step, hm]
    rfl
  obtain _ | n := n
  · simp [run, ending, hm] at he
  rw [hrun] at he
  by_cases hroom : s.depth ≤ m.stack.size
  · refine absurd he (Adrift.ending_ne ?_ n v)
    rw [await, enter, if_pos hroom]
    exact ⟨.inr ⟨_, rfl⟩, by simp [fail, hs]⟩
  generalize hfirst : m.await s (.rest behind) (.exec t) = m₁ at hrun he
  rw [await, enter, if_neg hroom] at hfirst
  have hexec : m₁.control = .exec t := by rw [← hfirst]
  have hwait : m₁.stack.items = [.rest behind] := by
    rw [← hfirst, ← hs]
    rfl
  obtain ⟨k, hk, hover, hbefore⟩ := first_over hwait (List.cons_ne_nil _ _) he
  have hleads (l : Nat) (hl : l ≤ k) : (m₁.run s l).Leads [.rest behind] m₁.frame :=
    Leads.run (hwait ▸ Leads.start) l (.inr fun j hj => hbefore j (by omega))
  obtain ⟨hitems, -⟩ := (hleads k (Nat.le_refl k)).of_isOver hover
  have hfinish : (m₁.run s n).ending = ((m₁.run s k).run s (n - k)).ending := by
    rw [← run_add, Nat.add_sub_cancel' hk]
  rw [hfinish] at he
  have hnocall (caller result) : .activation caller result ∉ (m₁.run s k).stack.items := by
    simp [hitems]
  cases hc : (m₁.run s k).control with
  | eval | exec | run =>
    have hdone := (isOver_iff.1 hover).2
    rw [hc] at hdone
    cases hdone
  | returning => exact absurd he (Adrift.ending_ne ⟨.inl ⟨_, hc⟩, hnocall⟩ _ v)
  | failing => exact absurd he (Adrift.ending_ne ⟨.inr ⟨_, hc⟩, hnocall⟩ _ v)
  | value w =>
    have hmore : k < n := by
      rcases Nat.lt_or_eq_of_le hk with hlt | rfl
      · exact hlt
      · rw [Nat.sub_self, run] at he
        rw [items_of_ending he] at hitems
        cases hitems
    have hnext : (m₁.run s (k + 1)).control = .run behind ∧
        (m₁.run s (k + 1)).stack.items = [] := by
      rw [run_add]
      generalize m₁.run s k = m₂ at hc hitems
      obtain ⟨control, ⟨items, size, hsize⟩, frame, heap, printed, callToken⟩ := m₂
      obtain rfl : control = .value w := hc
      obtain rfl : items = [.rest behind] := hitems
      exact ⟨rfl, rfl⟩
    refine ⟨k + 1, by omega, ?_, by rw [hrun]; exact hnext.1, by rw [hrun]; exact hnext.2⟩
    refine ⟨1, k + 1, by omega, Nat.le_refl _, by rw [hrun]; exact hexec, by rw [hrun]; exact hwait,
      fun l hl hlk => ?_, ⟨w, by rw [hrun]; exact hc⟩, by rw [hrun]; exact hitems⟩
    obtain ⟨l, rfl⟩ : ∃ l', l = l' + 1 := ⟨l - 1, by omega⟩
    obtain ⟨above, habove, -⟩ := hleads l (by omega)
    rw [hrun, habove]
    exact List.suffix_append above _

/-- Statements that are run to the end of the last one are executed to their end, in order. -/
theorem executes_all (hm : m.control = .run ss) (hs : m.stack.items = [])
    (he : (m.run s n).ending = .value v) (hss : ss = before ++ t :: behind) :
    m.Executes s n t behind := by
  induction before generalizing m n ss with
  | nil =>
    obtain ⟨j, hj, hexec, -⟩ := first_executes (hss ▸ hm) hs he
    exact hexec.mono (by omega)
  | cons first before ih =>
    obtain ⟨j, hj, -, hrun, hempty⟩ := first_executes (hss ▸ hm) hs he
    have hend : ((m.run s (j + 1)).run s (n - (j + 1))).ending = .value v := by
      rwa [← run_add, Nat.add_sub_cancel' hj]
    exact ((ih hrun hempty hend rfl).later).mono (by omega)

end Machine

/-! ## Flags -/

namespace Session

theorem flagged_conclude {s : Session} (h : s.log.Flagged false) (r : Run) :
    (s.conclude r).session.log.Flagged false := by
  unfold conclude
  split
  · exact h
  · exact h.runtimeError ..
  · exact h.runtimeError ..
  · exact h
  · exact h

end Session

theorem Log.Flagged.guarded {c : Conduct α} (h : c.session.log.Flagged false)
    (hc : c.answer ≠ .error .interrupted) : c.guarded.2.log.Flagged false := by
  unfold Conduct.guarded
  split
  · exact h
  · next e he =>
    have hother : e ≠ .interrupted := fun heq => hc (heq ▸ he)
    simpa [hother] using h.absorb e

/-! ## Reports before a run -/

/-- What a rule reports is about the text, also when it gives up or is stopped. -/
theorem Rule.Consumes.static {p : Rule α} (hp : p.Consumes n) (ts : List Token) :
    ∀ r ∈ (Grammar.run p ts).reports, r.kind = .static := by
  unfold Grammar.run
  dsimp only
  have hread := hp ((ts.find? (·.kind = .eof)).getD ⟨.eof, "", none, 1, 1⟩)
    ⟨ts.takeWhile (·.kind ≠ .eof), []⟩
  cases hr : p ((ts.find? (·.kind = .eof)).getD ⟨.eof, "", none, 1, 1⟩)
      ⟨ts.takeWhile (·.kind ≠ .eof), []⟩ with
  | read a next => rw [hr] at hread; exact hread.2.2.static_reverse
  | gaveUp next => rw [hr] at hread; exact hread.2.static_reverse
  | tooDeep made => rw [hr] at hread; exact hread.static_reverse

/-- What is reported while a program is read is about the text, also when the reading is stopped. -/
theorem Grammar.static_of_reading : ∀ r ∈ (readProgram room ts).reports, r.kind = .static := by
  have hstatic := (consumes_program room).static ts
  unfold readProgram
  cases hr : run (program room) ts <;> rw [hr] at hstatic <;> exact hstatic

namespace Session

theorem flagged_run {s : Session} (h : s.log.Flagged false) (cfg : Config)
    (path source : String) : (s.run cfg path source).session.log.Flagged false := by
  have hscanned : (s.scanSource path source).2.log.Flagged false :=
    (h.register path source).complainAll (static_of_scan _)
  have hstatic : ∀ r ∈ (Grammar.readProgram cfg.room (s.scanSource path source).1).reports,
      r.kind = .static := Grammar.static_of_reading
  have hread := hscanned.complainAll hstatic
  have hwalked (program : List Stmt) :=
    hread.complainAll (walkProgram cfg.levels program).static_of_reports
  unfold run
  dsimp only
  split
  · exact hread
  · next program _ =>
    split
    · exact hread
    · split
      · exact hwalked program
      · split
        · exact hwalked program
        · exact flagged_conclude (hwalked program) _

end Session

theorem Walk.static_of_staticReports (w : Walk α) : ∀ r ∈ w.staticReports, r.kind = .static := by
  refine List.forall_mem_append.2 ⟨w.static_of_reports, ?_⟩
  split <;> simp [Report.nestedTooDeeply, Report.plain]

theorem Input.static_of_staticReports (cfg : Config) (path source : String) :
    ∀ r ∈ (Input.run cfg path source).staticReports, r.kind = .static := by
  have hfront : ∀ r ∈ (scan source.toList).reports ++
      (Grammar.readProgram cfg.room (scan source.toList).tokens).reports, r.kind = .static :=
    List.forall_mem_append.2 ⟨static_of_scan _, Grammar.static_of_reading⟩
  unfold staticReports
  dsimp only
  split
  · exact List.forall_mem_append.2 ⟨hfront, by simp [Report.nestedTooDeeply, Report.plain]⟩
  · split
    · exact Walk.static_of_staticReports _
    · exact hfront

theorem Input.accepted_of_staticReports (h : (Input.run cfg path source).staticReports = []) :
    ∃ program, ProgramAccepted cfg.room cfg.levels source program := by
  unfold staticReports at h
  dsimp only at h
  split at h
  · simp at h
  · next program hread =>
    split at h
    · next hfront =>
      obtain ⟨hwalked, hnone⟩ := Walk.staticReports_eq_nil.1 h
      rw [(walkProgram_eq hwalked).2] at hnone
      exact ⟨program, hread, hwalked, by rw [programReports, hfront, hnone]; rfl⟩
    · next hfront => exact absurd h hfront

namespace Session

/-- A run whose ending is no fault can be left in one way only. -/
theorem answer_conclude {r : Run} {s : Session} (hr : ∀ f, r.ending ≠ .failed (.fault f))
    {g : Unit → α} (h : (s.conclude r).answer.map g = .error e) : e = .interrupted := by
  unfold conclude at h
  split at h
  · cases h
  · cases h
  · cases h
  · next f hf => exact absurd hf (hr f)
  · cases h
    rfl

/-- The ways out of running a first source other than reaching its end. -/
theorem answer_start (colored : Bool)
    (h : ((start colored).run cfg path source).answer = .error e) :
    e = .tooDeep ∨ e = .interrupted := by
  unfold run at h
  dsimp only at h
  split at h
  · cases h
    exact .inl rfl
  next program hread =>
  split at h
  · cases h
  split at h
  · cases h
    exact .inl rfl
  next hwalked =>
  rw [Bool.not_eq_true] at hwalked
  rw [(walkProgram_eq hwalked).2] at h
  split at h
  · cases h
  next hclean =>
  have hreports : programReports cfg.room source program = [] := by
    simpa [scanSource_eq, registered, report, Log.hadError_complainAll, Log.register, start,
      Log.empty, programReports, and_assoc] using hclean
  have hroots : Act.Roots (.run true cfg path source) (.stmts program) :=
    .run ⟨hread, hwalked, hreports⟩
  have hnever := neverFaults_after colored [] hroots cfg.setting
  rw [(walkProgram_eq hwalked).1] at h
  exact .inr (answer_conclude (hnever.ending cfg.steps) h)

end Session

/-! ## Statuses -/

namespace CommandLine

/-- What a session does with a script, given what its file holds, if anything. -/
def scriptConduct (cfg : Config) (colored : Bool) (path : String) (bytes : Option ByteArray) :
    Conduct Unit :=
  let s := Session.start colored
  match bytes.bind decodeScript with
  | none => s.stop (.error (unreadable path))
  | some source =>
    let c := s.run cfg path source
    { c with answer := c.answer.map fun _ => () }

theorem runScript_eq (h : options.tokens = false) :
    runScript cfg options path bytes =
      conclude (scriptConduct cfg options.colored path bytes) := by
  rw [runScript, scriptConduct]
  cases bytes.bind decodeScript with
  | none => rfl
  | some source => simp [h]

/-- The reports made on a script. -/
def scriptReports (cfg : Config) (colored : Bool) (path : String) (bytes : Option ByteArray) :
    List Report :=
  (scriptConduct cfg colored path bytes).guarded.2.log.reports.toList

/-- Every statement of the program that a source holds is executed to its end. -/
def RunsThrough (cfg : Config) (source : String) : Prop :=
  ∃ program, ProgramAccepted cfg.room cfg.levels source program ∧
    ∀ before t behind, (resolveProgram program).1 = before ++ t :: behind →
      (Memory.initial.start (.run (resolveProgram program).1)).Executes cfg.setting cfg.steps t
        behind

/-- The status of a script says what came of it, and nothing else is printed when it was not run. -/
structure Truthful (cfg : Config) (colored : Bool) (path : String) (bytes : Option ByteArray)
    (r : Result) : Prop where
  /-- No escape ends the process. -/
  returns : ∀ e, (scriptConduct cfg colored path bytes).answer = .error e →
    e.exitCode? true = none
  unreadable : r.status = statusUnreadable ↔ bytes.bind decodeScript = none
  only : r.status = statusUnreadable → scriptReports cfg colored path bytes =
    [.plain .io ("'" ++ path ++ "' could not be opened")]
  badProgram : r.status = statusBadProgram ↔
    ∃ d ∈ scriptReports cfg colored path bytes, d.kind = .static
  failed : r.status = statusFailed ↔
    (scriptReports cfg colored path bytes).countP (·.kind = .runtime) = 1
  ok : r.status = statusOk ↔ scriptReports cfg colored path bytes = [] ∧
    ∃ source, bytes.bind decodeScript = some source ∧ RunsThrough cfg source
  known : r.status ∈ [statusOk, statusBadProgram, statusUnreadable, statusFailed]
  silent : r.status = statusBadProgram ∨ r.status = statusUnreadable → r.out = ""

/-- What may come of a script: its reports, its status and what it prints. -/
inductive Verdict (cfg : Config) (path : String) (bytes : Option ByteArray) :
    List Report → Nat → String → Prop
  | unreadable : bytes.bind decodeScript = none →
    Verdict cfg path bytes [.plain .io ("'" ++ path ++ "' could not be opened")] statusUnreadable ""
  | rejected : bytes.bind decodeScript = some source → rs ≠ [] → (∀ r ∈ rs, r.kind = .static) →
    Verdict cfg path bytes rs statusBadProgram ""
  | failed : bytes.bind decodeScript = some source →
    Verdict cfg path bytes [.atRuntime token message] statusFailed out
  | finished : bytes.bind decodeScript = some source → RunsThrough cfg source →
    Verdict cfg path bytes [] statusOk out

/-- The status that reports call for. -/
def reportedStatus (rs : List Report) : Nat :=
  if rs.any (·.kind = .io) then statusUnreadable
  else if rs.any (·.kind = .static) then statusBadProgram
  else if rs.any fun r => r.kind = .runtime || r.kind = .internal then statusFailed
  else statusOk

theorem exitStatus_eq {log : Log} (h : log.Flagged false) :
    exitStatus log = reportedStatus log.reports.toList := by
  simp only [exitStatus, reportedStatus, h.hadError, h.hadRuntimeError, Log.hadUnreadable,
    Array.any_toList, Bool.false_or]

theorem reportedStatus_of_static (hne : rs ≠ []) (h : ∀ r ∈ rs, r.kind = .static) :
    reportedStatus rs = statusBadProgram := by
  obtain ⟨r, hr⟩ := List.exists_mem_of_ne_nil rs hne
  have hio : rs.any (·.kind = .io) = false := by
    simpa using fun d hd => by simp [h d hd]
  have hstatic : rs.any (·.kind = .static) = true := by
    simpa using ⟨r, hr, h r hr⟩
  simp [reportedStatus, hio, hstatic]

theorem status_conclude {c : Conduct Unit}
    (hr : ∀ e, c.answer = .error e → e.exitCode? true = none) :
    (conclude c).status = exitStatus c.guarded.2.log := by
  unfold conclude
  dsimp only
  split
  · rfl
  · next e he => rw [hr e he]

theorem flagged_scriptConduct (cfg : Config) (colored : Bool) (path : String)
    (bytes : Option ByteArray) :
    (scriptConduct cfg colored path bytes).session.log.Flagged false := by
  unfold scriptConduct
  dsimp only
  split
  · exact .empty colored
  · exact Session.flagged_run (.empty colored) ..

section
variable {cfg : Config} {colored : Bool} {path : String} {bytes : Option ByteArray}

theorem unreadable_eq_of_exitCode? (h : (unreadable path).exitCode? true = none) :
    unreadable path = .unreadable path := by
  unfold unreadable at h ⊢
  split
  · simp_all [Escape.exitCode?]
  · rfl

theorem scriptConduct_of_none (h : bytes.bind decodeScript = none) :
    scriptConduct cfg colored path bytes =
      (Session.start colored).stop (.error (unreadable path)) := by
  rw [scriptConduct, h]

theorem scriptConduct_of_some (h : bytes.bind decodeScript = some source) :
    scriptConduct cfg colored path bytes =
      { (Session.start colored).run cfg path source with
        answer := ((Session.start colored).run cfg path source).answer.map fun _ => () } := by
  rw [scriptConduct, h]

theorem out_conclude (c : Conduct Unit) : (conclude c).out = lineOut c.printed := rfl

theorem printed_scriptConduct (h : bytes.bind decodeScript = some source) :
    (scriptConduct cfg colored path bytes).printed =
      ((Session.start colored).run cfg path source).printed := by
  rw [scriptConduct_of_some h]

theorem guarded_scriptConduct (h : bytes.bind decodeScript = some source) :
    (scriptConduct cfg colored path bytes).guarded.2 =
      ((Session.start colored).run cfg path source).guarded.2 := by
  rw [scriptConduct_of_some h]
  cases hc : ((Session.start colored).run cfg path source).answer <;>
    simp [Conduct.guarded, hc, Except.map]

/-- An accepted program that nothing interrupts is run to its end, or stops with one report. -/
theorem verdict_of_accepted (hsource : bytes.bind decodeScript = some source)
    (haccepted : ProgramAccepted cfg.room cfg.levels source program)
    (hlive : ((Session.start colored).run cfg path source).answer ≠ .error .interrupted) :
    ∃ rs, ((Session.start colored).run cfg path source).guarded.2.log.reports = rs ∧
      ∀ out, Verdict cfg path bytes rs.toList (reportedStatus rs.toList) out := by
  have hending :=
    Session.ending_of_program colored [] haccepted cfg.setting cfg.steps
  have hrun : Faultless #[] (Memory.initial.interpret cfg.setting cfg.steps
      (resolveProgram program).1) ((Session.start colored).run cfg path source) := by
    rw [Session.run_of_accepted haccepted rfl]
    exact Session.conclude_faultless ((Session.start colored).registered path source) hending _
  have hguarded {a} (ha : ((Session.start colored).run cfg path source).answer = .ok a) :
      ((Session.start colored).run cfg path source).guarded.2.log.reports =
        ((Session.start colored).run cfg path source).session.log.reports := by
    rw [Conduct.guarded, ha]
  cases hrun with
  | completed he ha hreports =>
    exact ⟨_, (hguarded ha).trans hreports, fun _ => .finished hsource ⟨program, haccepted,
      fun before t behind hss => Machine.executes_all rfl rfl he hss⟩⟩
  | error he ha hreports => exact ⟨_, (hguarded ha).trans hreports, fun _ => .failed hsource⟩
  | @overflow token _ he ha hreports =>
    refine ⟨_, (hguarded ha).trans hreports, fun _ => ?_⟩
    cases token <;> exact .failed hsource
  | interrupted he ha => exact absurd ha hlive

/-- What comes of a script that nothing interrupts and whose escape does not end the process. -/
theorem verdict_scriptConduct
    (hr : ∀ e, (scriptConduct cfg colored path bytes).answer = .error e → e.exitCode? true = none)
    (hlive : (scriptConduct cfg colored path bytes).answer ≠ .error .interrupted) :
    Verdict cfg path bytes (scriptReports cfg colored path bytes)
      (conclude (scriptConduct cfg colored path bytes)).status
      (conclude (scriptConduct cfg colored path bytes)).out := by
  rw [status_conclude hr,
    exitStatus_eq ((flagged_scriptConduct cfg colored path bytes).guarded hlive), scriptReports]
  cases hsource : bytes.bind decodeScript with
  | none =>
    rw [scriptConduct_of_none hsource] at hr ⊢
    rw [unreadable_eq_of_exitCode? (hr _ rfl)]
    exact .unreadable hsource
  | some source =>
    rw [guarded_scriptConduct hsource]
    rw [scriptConduct_of_some hsource] at hlive
    by_cases hstatic : (Input.run cfg path source).staticReports = []
    · obtain ⟨program, haccepted⟩ := Input.accepted_of_staticReports hstatic
      have hran : ((Session.start colored).run cfg path source).answer ≠ .error .interrupted :=
        fun h => hlive (by rw [h]; rfl)
      obtain ⟨rs, hrs, hverdict⟩ := verdict_of_accepted hsource haccepted hran
      rw [hrs]
      exact hverdict _
    · obtain ⟨hstopped, -⟩ := Session.stopped_run (s := .start colored) rfl hstatic
      have hreports : ((Session.start colored).run cfg path source).guarded.2.log.reports.toList =
          (Input.run cfg path source).staticReports := hstopped.reports
      have hall := Input.static_of_staticReports cfg path source
      have hout : (conclude (scriptConduct cfg colored path bytes)).out = "" := by
        rw [out_conclude, printed_scriptConduct hsource, hstopped.printed]
        rfl
      rw [hreports, reportedStatus_of_static hstatic hall, hout]
      exact .rejected hsource hstatic hall

/-- What a verdict says, in terms of the reports. -/
theorem Verdict.truthful {r : Result}
    (h : Verdict cfg path bytes (scriptReports cfg colored path bytes) r.status r.out)
    (hr : ∀ e, (scriptConduct cfg colored path bytes).answer = .error e → e.exitCode? true = none) :
    Truthful cfg colored path bytes r := by
  obtain ⟨status, out, err⟩ := r
  dsimp only at h
  generalize hreports : scriptReports cfg colored path bytes = rs at h
  cases h with
  | unreadable hsource =>
    exact {
      returns := hr
      unreadable := iff_of_true rfl hsource
      only := fun _ => hreports
      badProgram := iff_of_false (by dsimp only; decide) (by simp [hreports, Report.plain])
      failed := iff_of_false (by dsimp only; decide) (by simp [hreports, Report.plain])
      ok := iff_of_false (by dsimp only; decide) (by simp [hreports])
      known := by dsimp only; decide
      silent := fun _ => rfl }
  | rejected hsource hne hall =>
    obtain ⟨d, hd⟩ := List.exists_mem_of_ne_nil rs hne
    have hcount : rs.countP (·.kind = .runtime) = 0 := by
      simpa [List.countP_eq_zero] using fun d hd => by simp [hall d hd]
    exact {
      returns := hr
      unreadable := iff_of_false (by dsimp only; decide) (by simp [hsource])
      only := fun h => absurd h (by dsimp only; decide)
      badProgram := iff_of_true rfl ⟨d, hreports ▸ hd, hall d hd⟩
      failed := iff_of_false (by dsimp only; decide) (by rw [hreports, hcount]; decide)
      ok := iff_of_false (by dsimp only; decide) (by simp [hreports, hne])
      known := by dsimp only; decide
      silent := fun _ => rfl }
  | @failed _ token message _ hsource =>
    have hkind : (Report.atRuntime token message).kind = .runtime := by cases token <;> rfl
    exact {
      returns := hr
      unreadable := iff_of_false (by dsimp only; decide) (by simp [hsource])
      only := fun h => absurd h (by dsimp only; decide)
      badProgram := iff_of_false (by dsimp only; decide) (by simp [hreports, hkind])
      failed := iff_of_true rfl (by simp [hreports, hkind])
      ok := iff_of_false (by dsimp only; decide) (by simp [hreports])
      known := by dsimp only; decide
      silent := fun h => absurd h (by dsimp only; decide) }
  | finished hsource hthrough =>
    exact {
      returns := hr
      unreadable := iff_of_false (by dsimp only; decide) (by simp [hsource])
      only := fun h => absurd h (by dsimp only; decide)
      badProgram := iff_of_false (by dsimp only; decide) (by simp [hreports])
      failed := iff_of_false (by dsimp only; decide) (by simp [hreports])
      ok := iff_of_true rfl ⟨hreports, _, hsource, hthrough⟩
      known := by dsimp only; decide
      silent := fun h => absurd h (by dsimp only; decide) }

end

theorem unreadable_eq_iff : unreadable path = .unreadable path ↔ '\x00' ∉ path.toList := by
  unfold unreadable
  split <;> simp_all

theorem withLimit_ok_iff : (∃ cfg', withLimit limit cfg = .ok cfg') ↔
    ∃ n, limit = some n ∧ n ≤ greatestLimit := by
  cases limit with
  | none => simp [withLimit]
  | some n =>
    by_cases h : greatestLimit < n
    · simp [withLimit, h, Int.not_le.2 h]
    · simp [withLimit, h, Int.not_lt.1 h]

theorem serve_script (hscript : options.script = some path) (htokens : options.tokens = false)
    (h : withLimit options.recursionLimit cfg = .ok cfg') :
    (Request.run options).serve cfg file? input =
      .ok (conclude (scriptConduct cfg' options.colored path (file? path))) := by
  rw [← runScript_eq htokens, Request.serve, h, hscript]
  rfl

/-- When nothing interrupts it, a script is run and its status and output tell the truth, unless the
recursion limit cannot be set, or the script cannot be read and its path has a null character: then
what is reported is a fault, and it ends the process. -/
theorem script_truthful_iff (cfg : Config) (file? : String → Option ByteArray) (input : String)
    (hscript : options.script = some path) (htokens : options.tokens = false)
    (hlive : ∀ cfg', withLimit options.recursionLimit cfg = .ok cfg' →
      (scriptConduct cfg' options.colored path (file? path)).answer ≠ .error .interrupted) :
    (∃ cfg' r, withLimit options.recursionLimit cfg = .ok cfg' ∧
        (Request.run options).serve cfg file? input = .ok r ∧
        Truthful cfg' options.colored path (file? path) r) ↔
      (∃ n, options.recursionLimit = some n ∧ n ≤ greatestLimit) ∧
        ((file? path).bind decodeScript = none → '\x00' ∉ path.toList) := by
  rw [← withLimit_ok_iff]
  constructor
  · rintro ⟨cfg', r, hlimit, -, htruth⟩
    refine ⟨⟨cfg', hlimit⟩, fun hnone => ?_⟩
    have hreturns := htruth.returns
    rw [scriptConduct_of_none hnone] at hreturns
    exact unreadable_eq_iff.1 (unreadable_eq_of_exitCode? (hreturns _ rfl))
  · rintro ⟨⟨cfg', hlimit⟩, hnull⟩
    have hreturns : ∀ e, (scriptConduct cfg' options.colored path (file? path)).answer = .error e →
        e.exitCode? true = none := by
      cases hsource : (file? path).bind decodeScript with
      | none =>
        rw [scriptConduct_of_none hsource, unreadable_eq_iff.2 (hnull hsource)]
        rintro _ ⟨⟩
        rfl
      | some source =>
        rw [scriptConduct_of_some hsource]
        intro e he
        cases hanswer : ((Session.start options.colored).run cfg' path source).answer with
        | ok => simp [hanswer, Except.map] at he
        | error e' =>
          obtain rfl : e' = e := by simpa [hanswer, Except.map] using he
          obtain rfl | rfl := Session.answer_start options.colored hanswer
          · rfl
          · rfl
    exact ⟨cfg', _, hlimit, serve_script hscript htokens hlimit,
      (verdict_scriptConduct hreturns (hlive cfg' hlimit)).truthful hreturns⟩

/-- A path with a null character, which no file has. -/
theorem script_untruthful_of_null :
    let options : Options := ⟨some "a\x00b.lox", false, false, some 100000⟩
    ∃ cfg r, withLimit options.recursionLimit (.standard 0) = .ok cfg ∧
      (Request.run options).serve (.standard 0) (fun _ => none) "" = .ok r ∧
      r.status = statusFailed ∧
      r.err = "[internal] Error: unknown error: 'ValueError: embedded null byte'\n" ∧
      ¬ Truthful cfg false "a\x00b.lox" none r := by
  have hconduct (cfg : Config) : scriptConduct cfg false "a\x00b.lox" none =
      (Session.start false).stop (.error (.unknown "ValueError" "embedded null byte")) := by
    rw [scriptConduct_of_none rfl, unreadable, if_pos (by simp)]
  refine ⟨_, _, rfl, serve_script rfl rfl rfl, ?_, ?_, fun h => ?_⟩
  · rw [hconduct]
    rfl
  · rw [hconduct]
    decide +kernel
  · have hfatal := h.returns
    rw [hconduct] at hfatal
    cases hfatal _ rfl

/-- A script that prints, whose limit is lower than the one that holds. -/
theorem script_truthful_of_print :
    let options : Options := ⟨some "a.lox", false, false, some 9⟩
    ∃ cfg r, withLimit options.recursionLimit ⟨9, 9, ⟨9, fun _ => 0⟩, 99⟩ = .ok cfg ∧
      (Request.run options).serve ⟨9, 9, ⟨9, fun _ => 0⟩, 99⟩ (fun _ => some "print 1;".toUTF8) "" =
        .ok r ∧
      Truthful cfg false "a.lox" (some "print 1;".toUTF8) r := by
  refine (script_truthful_iff ⟨9, 9, ⟨9, fun _ => 0⟩, 99⟩ _ "" rfl rfl fun cfg' hcfg' => ?_).2
    ⟨⟨9, rfl, by decide⟩, fun _ => by decide⟩
  cases hcfg'
  have hok : (scriptConduct ⟨9, 9, ⟨9, fun _ => 0⟩, 99⟩ false "a.lox"
      (some "print 1;".toUTF8)).answer.isOk := by
    decide +kernel
  intro hanswer
  change (scriptConduct ⟨9, 9, ⟨9, fun _ => 0⟩, 99⟩ false "a.lox"
    (some "print 1;".toUTF8)).answer = _ at hanswer
  rw [hanswer] at hok
  cases hok

end CommandLine

end LoxLang
