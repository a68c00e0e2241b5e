import Mathlib.Data.List.Induction
import LoxLang.Report.Log

/-!
# What the flags of a log say

Only two flags are stored, and each is set by some operations of the log and left alone by the
others. Yet they never say anything but what the held reports are (`Log.Flagged`), except that an
interruption counts as a run gone wrong until the next reset, although its own report is a mere
notice. That every operation keeps this, and that an escape of whatever kind ends in the operation
for it, makes `Log.flags_summarise_reports`.
-/

namespace LoxLang

/-- The report that an escape is to get. A request to end the process gets none. -/
def Escape.report? : Escape → Option Report
  | interrupted => some (.plain .warning "keyboard interrupt")
  | tooDeep => some .nestedTooDeeply
  | misread _ message => some (.plain .internal message)
  | runtime token message => some (.atRuntime token message)
  | stackOverflow token => some (.atRuntime token overflowMessage)
  | unreadable path => some (.plain .io ("'" ++ path ++ "' could not be opened"))
  | internal message => some (.plain .internal message)
  | unknown kind message =>
    some (.plain .internal ("unknown error: '" ++ kind ++ ": " ++ message ++ "'"))
  | exit _ => none

theorem Report.kind_atRuntime (token : Option Token) (message : String) :
    (atRuntime token message).kind = .runtime := by
  cases token <;> rfl

namespace Log

/-! ## The flags -/

/-- The flags of a log say what its reports are, and whether a run was interrupted. -/
structure Flagged (interrupted : Bool) (log : Log) : Prop where
  hadError : log.hadError = log.reports.any (·.kind = .static)
  hadRuntimeError : log.hadRuntimeError =
    (interrupted || log.reports.any fun r => r.kind = .runtime || r.kind = .internal)

namespace Flagged

variable {interrupted : Bool} {log : Log}

theorem empty (colored : Bool) : (Log.empty colored).Flagged false := by
  constructor <;> simp [Log.empty]

theorem register (h : log.Flagged interrupted) (path source : String) :
    (log.register path source).Flagged interrupted :=
  ⟨h.hadError, h.hadRuntimeError⟩

theorem reset (log : Log) : log.reset.Flagged false := by
  constructor <;> simp [Log.reset]

/-- A report for which there is no flag is held without one. -/
theorem emit (h : log.Flagged interrupted) (hr : r.kind = .warning ∨ r.kind = .io) :
    (log.emit r).Flagged interrupted := by
  rcases hr with hr | hr <;> constructor <;> simp [h.hadError, h.hadRuntimeError, hr]

theorem complain (h : log.Flagged interrupted) (hr : r.kind = .static) :
    (log.complain r).Flagged interrupted := by
  constructor <;> simp [Log.complain, h.hadRuntimeError, hr]

theorem complainAll (h : log.Flagged interrupted) (hrs : ∀ r ∈ rs, r.kind = .static) :
    (log.complainAll rs).Flagged interrupted := by
  induction rs generalizing log with
  | nil => exact h
  | cons r rs ih =>
    obtain ⟨hr, hrs⟩ := List.forall_mem_cons.1 hrs
    exact ih (h.complain hr) hrs

theorem runtimeError (h : log.Flagged interrupted) (token : Option Token) (message : String) :
    (log.runtimeError token message).Flagged interrupted := by
  constructor <;> simp [Log.runtimeError, h.hadError, Report.kind_atRuntime]

theorem warn (h : log.Flagged interrupted) (message : String) :
    (log.warn message).Flagged interrupted := h.emit (.inl rfl)

theorem ioError (h : log.Flagged interrupted) (message : String) :
    (log.ioError message).Flagged interrupted := h.emit (.inr rfl)

theorem internal (h : log.Flagged interrupted) (message : String) :
    (log.internal message).Flagged interrupted := by
  constructor <;> simp [Log.internal, h.hadError, Report.plain]

/-- A log is told of an interruption by the flag alone. -/
theorem interrupt (h : log.Flagged interrupted) :
    { log with hadRuntimeError := true }.Flagged true :=
  ⟨h.hadError, rfl⟩

theorem absorb (h : log.Flagged interrupted) (e : Escape) :
    (log.absorb e).Flagged (e = .interrupted || interrupted) := by
  cases e with
  | interrupted => exact h.interrupt.warn _
  | tooDeep => exact h.complain rfl
  | runtime token message => exact h.runtimeError token message
  | stackOverflow token => exact h.runtimeError token _
  | unreadable path => exact h.ioError _
  | misread _ message | internal message => exact h.internal message
  | unknown kind message => exact h.internal _
  | exit code => exact h

end Flagged

/-! ## Deeds -/

/-- What can be done with a log. A guarded block is entered without any effect on it, so that a
block is what is done inside, and then how it is left. -/
inductive Deed where
  | error (line : Nat) (message : String)
  | errorAt (token : Token) (message : String)
  | runtimeError (token : Option Token) (message : String)
  | warn (message : String)
  | ioError (message : String)
  | internal (message : String)
  | register (path source : String)
  | reset
  /-- A guarded block is left, at its end or by an escape. -/
  | leave (escape : Option Escape)
deriving DecidableEq

/-- The log behind a deed. -/
def perform (log : Log) : Deed → Log
  | .error line message => log.error line message
  | .errorAt token message => log.errorAt token message
  | .runtimeError token message => log.runtimeError token message
  | .warn message => log.warn message
  | .ioError message => log.ioError message
  | .internal message => log.internal message
  | .register path source => log.register path source
  | .reset => log.reset
  | .leave none => log
  | .leave (some e) => log.absorb e

/-- The log behind some deeds, done one after the other. -/
def performAll (log : Log) (deeds : List Deed) : Log := deeds.foldl perform log

namespace Deed

/-- The report that a deed makes, if it makes one. -/
def report? : Deed → Option Report
  | error line message => some (.onLine line message)
  | errorAt token message => some (.atToken token message)
  | runtimeError token message => some (.atRuntime token message)
  | warn message => some (.plain .warning message)
  | ioError message => some (.plain .io message)
  | internal message => some (.plain .internal message)
  | leave escape => escape.bind Escape.report?
  | register _ _ | reset => none

end Deed

/-- A log gains the report of a deed, if there is one, behind those that it held, and shows it
behind what it had shown, with the source line if there is one. Only a reset drops reports. -/
def Gains (log : Log) (deed : Deed) (log' : Log) : Prop :=
  match deed.report? with
  | some r => log'.reports = log.reports.push r ∧
      log'.shown = log.shown ++ (r.render log.colored ++ "\n" ++
        ((log.diagnose? r).map (· ++ "\n")).getD "")
  | none => log'.reports = (if deed = .reset then #[] else log.reports) ∧ log'.shown = log.shown

/-- Whatever the flags are set to, a report that is emitted is gained. -/
theorem gains_emit (log : Log) (deed : Deed) (h : deed.report? = some r)
    (hadError hadRuntimeError : Bool) :
    log.Gains deed ({ log with hadError, hadRuntimeError }.emit r) := by
  rw [Gains, h]
  have hquoted : { log with hadError, hadRuntimeError }.diagnose? r = log.diagnose? r := rfl
  refine ⟨rfl, congrArg (log.shown ++ ·) ?_⟩
  rw [display, hquoted]
  cases log.diagnose? r <;> rfl

theorem gains_perform (log : Log) (deed : Deed) : log.Gains deed (log.perform deed) := by
  cases deed with
  | register | reset => exact ⟨rfl, rfl⟩
  | error | errorAt => exact gains_emit log _ rfl true log.hadRuntimeError
  | runtimeError | internal => exact gains_emit log _ rfl log.hadError true
  | warn | ioError => exact gains_emit log _ rfl log.hadError log.hadRuntimeError
  | leave escape =>
    cases escape with
    | none => exact ⟨rfl, rfl⟩
    | some e =>
      cases e with
      | exit code => exact ⟨rfl, rfl⟩
      | tooDeep => exact gains_emit log _ rfl true log.hadRuntimeError
      | unreadable => exact gains_emit log _ rfl log.hadError log.hadRuntimeError
      | _ => exact gains_emit log _ rfl log.hadError true

/-! ## Interruptions -/

/-- A run was interrupted, and there was no reset since. -/
def Interrupted (deeds : List Deed) : Prop :=
  ∃ before since, deeds = before ++ .leave (some .interrupted) :: since ∧ .reset ∉ since

theorem interrupted_concat (deeds : List Deed) (deed : Deed) :
    Interrupted (deeds ++ [deed]) ↔
      deed = .leave (some .interrupted) ∨ (deed ≠ .reset ∧ Interrupted deeds) := by
  constructor
  · rintro ⟨before, since, heq, hreset⟩
    cases since using List.reverseRecOn with
    | nil => exact .inl (List.singleton_inj.1 (List.append_inj' heq rfl).2)
    | append_singleton since last =>
      rw [← List.cons_append, ← List.append_assoc] at heq
      obtain ⟨rfl, hlast⟩ := List.append_inj' heq rfl
      obtain rfl := List.singleton_inj.1 hlast
      rw [List.mem_append, List.mem_singleton, not_or] at hreset
      exact .inr ⟨Ne.symm hreset.2, before, since, rfl, hreset.1⟩
  · rintro (rfl | ⟨hreset, before, since, rfl, hsince⟩)
    · exact ⟨deeds, [], rfl, List.not_mem_nil⟩
    · exact ⟨before, since ++ [deed], by simp, by simp [hsince, hreset.symm]⟩

theorem Flagged.perform {log : Log} (h : log.Flagged interrupted) (deed : Deed) :
    (log.perform deed).Flagged
      (deed = .leave (some .interrupted) || (deed ≠ .reset && interrupted)) := by
  cases deed with
  | register path source => simpa [Log.perform] using h.register path source
  | reset => simpa [Log.perform] using Flagged.reset log
  | leave escape =>
    cases escape with
    | none => simpa [Log.perform] using h
    | some e => simpa [Log.perform] using h.absorb e
  | error line message => simpa [Log.perform, Log.error] using h.complain rfl
  | errorAt token message => simpa [Log.perform, Log.errorAt] using h.complain rfl
  | runtimeError token message => simpa [Log.perform] using h.runtimeError token message
  | warn message => simpa [Log.perform] using h.warn message
  | ioError message => simpa [Log.perform] using h.ioError message
  | internal message => simpa [Log.perform] using h.internal message

theorem flagged_performAll (colored : Bool) (deeds : List Deed) :
    ∃ interrupted, ((Log.empty colored).performAll deeds).Flagged interrupted ∧
      (interrupted = true ↔ Interrupted deeds) := by
  induction deeds using List.reverseRecOn with
  | nil => exact ⟨false, .empty colored, by simp [Interrupted]⟩
  | append_singleton deeds deed ih =>
    obtain ⟨interrupted, hflagged, hsince⟩ := ih
    have hbehind : (Log.empty colored).performAll (deeds ++ [deed]) =
        ((Log.empty colored).performAll deeds).perform deed := by
      rw [performAll, List.foldl_append]
      rfl
    refine ⟨_, hbehind ▸ hflagged.perform deed, ?_⟩
    rw [interrupted_concat, ← hsince]
    simp

/-- Whatever is done with a log, its flags say what reports it holds: whether there is one about the
text, one about a file, and one about a run or an internal fault, or else an interruption since the
last reset. Whatever is done next adds its one report, if it makes one, behind those held and behind
what is shown; only a reset drops reports. -/
theorem flags_summarise_reports (colored : Bool) (deeds : List Deed) :
    let log := (Log.empty colored).performAll deeds
    (log.hadError = true ↔ ∃ r ∈ log.reports, r.kind = .static) ∧
      (log.hadUnreadable = true ↔ ∃ r ∈ log.reports, r.kind = .io) ∧
      (log.hadRuntimeError = true ↔
        (∃ r ∈ log.reports, r.kind = .runtime ∨ r.kind = .internal) ∨ Interrupted deeds) ∧
      ∀ deed, log.Gains deed (log.perform deed) := by
  intro log
  obtain ⟨interrupted, hflagged, hsince⟩ := flagged_performAll colored deeds
  refine ⟨?_, ?_, ?_, gains_perform log⟩
  · simp [log, hflagged.hadError, -Array.any_eq_true, Array.any_eq_true']
  · simp [log, hadUnreadable, -Array.any_eq_true, Array.any_eq_true']
  · simp [log, hflagged.hadRuntimeError, ← hsince, or_comm, -Array.any_eq_true, Array.any_eq_true']

end Log

end LoxLang
