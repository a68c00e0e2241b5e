import LoxLang.Report.Style

/-!
# Logs

The log of a session: the reports made since the last reset, the two flags that say whether the
program or its run went wrong, the sources that reports may quote, and everything shown so far.

There is one operation for each thing to report. `Log.emit` holds a report and shows it, and sets no
flag: `Log.complain`, on which `Log.error` and `Log.errorAt` rest, sets the one, `Log.runtimeError`
and `Log.internal` set the other, and `Log.warn` and `Log.ioError` set none. `Log.absorb` reports
what gets out of a guarded block by the operation for its kind.
-/

namespace LoxLang

structure Log where
  colored : Bool
  /-- The path registered last, whose source is quoted. -/
  path : Option String
  /-- The lines of the source registered last under each path. -/
  sources : List (String × List (List Char))
  reports : Array Report
  hadError : Bool
  hadRuntimeError : Bool
  /-- All that was shown, in order. -/
  shown : String

namespace Log

/-- The empty log. -/
def empty (colored : Bool) : Log := ⟨colored, none, [], #[], false, false, ""⟩

/-- Makes a source the one that reports quote. -/
def register (path source : String) (log : Log) : Log :=
  { log with
    path := some path
    sources := (path, Text.lines source.toList) :: log.sources.filter (·.1 != path) }

/-- Forgets reports and flags, between independent inputs. -/
def reset (log : Log) : Log :=
  { log with reports := #[], hadError := false, hadRuntimeError := false }

/-- The lines that reports may quote. -/
def source (log : Log) : List (List Char) :=
  ((log.path.bind fun path => log.sources.lookup path).getD [])

/-- The source line of a report under this log. -/
def diagnose? (log : Log) (r : Report) : Option String := r.diagnose? log.colored log.source

/-- The report and, if there is one, its source line, each followed by a newline. -/
def display (log : Log) (r : Report) : String :=
  r.render log.colored ++ "\n" ++
    match log.diagnose? r with
    | some quotation => quotation ++ "\n"
    | none => ""

/-- Holds a report and shows it. The flags are the business of the operations below. -/
def emit (r : Report) (log : Log) : Log :=
  { log with
    shown := log.shown ++ log.display r
    reports := log.reports.push r }

/-- Reports what is wrong with the text of a program. -/
def complain (r : Report) (log : Log) : Log := { log with hadError := true }.emit r

/-- Makes the reports of a stage, in order. -/
def complainAll (rs : List Report) (log : Log) : Log := rs.foldl (fun log r => log.complain r) log

/-- Reports an error on a line, where no token is at fault. -/
def error (line : Nat) (message : String) (log : Log) : Log :=
  log.complain (.onLine line message)

/-- Reports an error at a token. -/
def errorAt (token : Token) (message : String) (log : Log) : Log :=
  log.complain (.atToken token message)

/-- Reports the error that ended a run. -/
def runtimeError (token : Option Token) (message : String) (log : Log) : Log :=
  { log with hadRuntimeError := true }.emit (.atRuntime token message)

/-- Gives a notice that no flag keeps. -/
def warn (message : String) (log : Log) : Log := log.emit (.plain .warning message)

/-- Reports that a file could not be read. The report itself keeps the fact, and no flag. -/
def ioError (message : String) (log : Log) : Log := log.emit (.plain .io message)

/-- Reports a fault of the interpreter itself. -/
def internal (message : String) (log : Log) : Log :=
  { log with hadRuntimeError := true }.emit (.plain .internal message)

@[simp] theorem reports_emit (r : Report) (log : Log) :
    (log.emit r).reports = log.reports.push r := rfl

@[simp] theorem shown_emit (r : Report) (log : Log) :
    (log.emit r).shown = log.shown ++ log.display r := rfl

@[simp] theorem hadError_emit (r : Report) (log : Log) :
    (log.emit r).hadError = log.hadError := rfl

@[simp] theorem hadRuntimeError_emit (r : Report) (log : Log) :
    (log.emit r).hadRuntimeError = log.hadRuntimeError := rfl

@[simp] theorem hadError_complain (r : Report) (log : Log) : (log.complain r).hadError = true := rfl

theorem complainAll_cons (r : Report) (rs : List Report) (log : Log) :
    log.complainAll (r :: rs) = (log.complain r).complainAll rs := rfl

theorem complainAll_append (rs qs : List Report) (log : Log) :
    log.complainAll (rs ++ qs) = (log.complainAll rs).complainAll qs := List.foldl_append

theorem toList_reports_complainAll (rs : List Report) (log : Log) :
    (log.complainAll rs).reports.toList = log.reports.toList ++ rs := by
  induction rs generalizing log with
  | nil => simp [complainAll]
  | cons r rs ih => rw [complainAll_cons, ih]; simp [complain]

theorem hadError_complainAll (rs : List Report) (log : Log) :
    (log.complainAll rs).hadError = (log.hadError || !rs.isEmpty) := by
  induction rs generalizing log with
  | nil => simp [complainAll]
  | cons r rs ih => rw [complainAll_cons, ih]; simp

/-- What was shown since the log was in an earlier state. -/
def shownSince (log earlier : Log) : String :=
  String.ofList (log.shown.toList.drop earlier.shown.length)

/-- Whether a held report is about a file that could not be read. -/
def hadUnreadable (log : Log) : Bool := log.reports.any (·.kind = .io)

end Log

/-- The kinds of what can get out of a guarded block. -/
inductive EscapeKind where
  | exit | interrupt | recursion | error | parse | runtime | overflow | source
  | other (name : String)
deriving DecidableEq

namespace EscapeKind

/-- The kinds that a kind belongs to besides itself, the nearest one first. -/
def wider : EscapeKind → List EscapeKind
  | parse | runtime | source => [error]
  | overflow => [runtime, error]
  | _ => []

/-- Whether whatever is of one kind is of another one too. -/
def isA (kind other : EscapeKind) : Bool := kind = other || kind.wider.contains other

end EscapeKind

/-- The ways out of a guarded block other than reaching its end. -/
inductive Escape where
  /-- The user interrupted the run. -/
  | interrupted
  /-- The program is nested too deeply to be read or resolved. -/
  | tooDeep
  /-- A piece of a program that cannot be read, and that no declaration around it recovers from. -/
  | misread (token : Option Token) (message : String)
  /-- A run-time error that nothing handled. -/
  | runtime (token : Option Token) (message : String)
  | stackOverflow (token : Option Token)
  /-- A script that cannot be read. -/
  | unreadable (path : String)
  /-- A fault of the interpreter that it noticed itself. -/
  | internal (message : String)
  /-- Any other fault, by the name of its kind. -/
  | unknown (kind message : String)
  /-- A request to end the process. -/
  | exit (code : Option Int)
deriving DecidableEq

namespace Escape

def overflowMessage : String := "Stack overflow."

def kind : Escape → EscapeKind
  | interrupted => .interrupt
  | tooDeep => .recursion
  | misread _ _ => .parse
  | runtime _ _ => .runtime
  | stackOverflow _ => .overflow
  | unreadable _ => .source
  | internal _ => .error
  | unknown kind _ => .other kind
  | exit _ => .exit

/-- The token that an escape carries. -/
def token? : Escape → Option Token
  | misread token _ | runtime token _ | stackOverflow token => token
  | _ => none

/-- What an escape says about itself. -/
def message : Escape → String
  | misread _ message | runtime _ message | internal message => message
  | stackOverflow _ => overflowMessage
  | unreadable path => "'" ++ path ++ "' could not be opened"
  | unknown _ message => message
  | interrupted | tooDeep | exit _ => ""

/-- An escape in words, a fault of unknown nature with the name of its kind. -/
def text : Escape → String
  | unknown kind message => kind ++ ": " ++ message
  | e => e.message

/-- The exit code an escape carries on with. An unknown fault ends the process only where such
faults are fatal. -/
def exitCode? (fatal : Bool) : Escape → Option (Option Int)
  | unknown _ _ => if fatal then some (some 70) else none
  | exit code => some code
  | _ => none

end Escape

namespace Log

/-- Reports an escape. The kinds are tried in this order, so that a narrower one comes before a
wider one; a request to end the process gets no report. An interrupted run did not complete, so it
counts as a run gone wrong. -/
def absorb (e : Escape) (log : Log) : Log :=
  if e.kind = .exit then log
  else if e.kind.isA .interrupt then
    { log with hadRuntimeError := true }.warn "keyboard interrupt"
  else if e.kind.isA .recursion then log.complain .nestedTooDeeply
  else if e.kind.isA .runtime then log.runtimeError e.token? e.message
  else if e.kind.isA .source then log.ioError e.message
  else if e.kind.isA .error then log.internal e.message
  else log.internal ("unknown error: '" ++ e.text ++ "'")

end Log

end LoxLang
