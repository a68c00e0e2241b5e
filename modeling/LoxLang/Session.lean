import LoxLang.Grammar.Program
import LoxLang.Lexical.Scan
import LoxLang.Machine.Interpret
import LoxLang.Report.Log
import LoxLang.Scope.Walk

/-!
# Sessions

A `Session` runs sources one after the other; the memory and the log last from one to the next. A
source is scanned, read, resolved and only then run (`run`, `evaluate`), and a report before the run
keeps it from running at all (`conclude`).
-/

namespace LoxLang

/-- What a session is given from outside. -/
structure Config where
  /-- How deeply the grammar's rules may be nested. -/
  room : Nat
  /-- How many nodes deep a tree may be for the walk of the resolver. -/
  levels : Nat
  setting : Setting
  /-- How many steps a run may take before it is interrupted. -/
  steps : Nat

/-- The limits that hold unless a session is told otherwise. No run that is ever waited for takes so
many steps. -/
def Config.standard (clock : Float) : Config :=
  ⟨6000, 16000, ⟨50000, fun _ => clock⟩, 4611686018427387904⟩

structure Session where
  log : Log
  memory : Memory

/-- What a session does with one source: an answer, or an escape that the log has yet to absorb. -/
structure Conduct (α : Type) where
  answer : Except Escape α
  printed : Array String
  session : Session

namespace Fault

/-- How a fault leaves a session. -/
def escape (f : Fault) : Escape :=
  match f.message?, f with
  | some message, _ => .internal message
  | none, .unbound name => .unknown "unbound name" name
  | none, _ => .unknown "absent part" ""

end Fault

namespace Session

def start (colored : Bool) : Session := ⟨.empty colored, .initial⟩

/-- Makes the reports of a stage that looks at a program before it runs. -/
def report (rs : List Report) (s : Session) : Session := { s with log := s.log.complainAll rs }

/-- A step that ends without running anything. -/
def stop {α : Type} (s : Session) (answer : Except Escape α) : Conduct α := ⟨answer, #[], s⟩

/-- Takes over what a run leaves, and reports the error that ended it. Faults escape, and so does a
run that did not end. -/
def conclude (r : Run) (s : Session) : Conduct Unit :=
  let s := { s with memory := r.memory }
  match r.ending with
  | .value _ => ⟨.ok (), r.printed, s⟩
  | .failed (.error token e) =>
    ⟨.ok (), r.printed, { s with log := s.log.runtimeError (some token) e.message }⟩
  | .failed (.overflow token) =>
    ⟨.ok (), r.printed, { s with log := s.log.runtimeError token Escape.overflowMessage }⟩
  | .failed (.fault f) => ⟨.error f.escape, r.printed, s⟩
  | .unfinished => ⟨.error .interrupted, r.printed, s⟩

/-- Registers a source and scans it. -/
def scanSource (path source : String) (s : Session) : List Token × Session :=
  let s := { s with log := s.log.register path source }
  let scanned := scan source.toList
  (scanned.tokens, s.report scanned.reports)

/-- The tokens of a source as a token list shows them. -/
def tokens (path source : String) (s : Session) : List String × Session :=
  let (ts, s) := s.scanSource path source
  (ts.map Token.listing, s)

/-- Runs a source as a program. The answer is whether it ran to its end without any report since the
last reset. -/
def run (cfg : Config) (path source : String) (s : Session) : Conduct Bool :=
  let (ts, s) := s.scanSource path source
  let reading := Grammar.readProgram cfg.room ts
  let s := s.report reading.reports
  match reading.value? with
  | none => s.stop (.error .tooDeep)
  | some program =>
    if s.log.hadError then s.stop (.ok false)
    else
      let walk := walkProgram cfg.levels program
      let s := s.report walk.reports
      if walk.stopped then s.stop (.error .tooDeep)
      else if s.log.hadError then s.stop (.ok false)
      else
        let c := s.conclude (s.memory.interpret cfg.setting cfg.steps walk.tree)
        { c with answer := c.answer.map fun _ => !c.session.log.hadRuntimeError }

/-- Evaluates a source as one expression. The answer is the text of its value, unless there is a
report. -/
def evaluate (cfg : Config) (path source : String) (s : Session) : Conduct (Option String) :=
  let (ts, s) := s.scanSource path source
  let reading := Grammar.readExpression cfg.room ts
  let s := s.report reading.reports
  match reading.value? with
  | none => s.stop (.error .tooDeep)
  | some none => s.stop (.ok none)
  | some (some e) =>
    if s.log.hadError then s.stop (.ok none)
    else
      let walk := walkExpression cfg.levels e
      let s := s.report walk.reports
      if walk.stopped then s.stop (.error .tooDeep)
      else if s.log.hadError then s.stop (.ok none)
      else
        let r := s.memory.evaluate cfg.setting cfg.steps walk.tree
        let c := s.conclude r
        { c with answer := c.answer.map fun _ => r.text? }

/-- The global variables with the texts of their values, in the order of definition. -/
def globals (s : Session) : List (String × Value × String) :=
  match s.memory.heap.frames.frame? Heap.globals with
  | none => []
  | some f => f.bindings.map fun (name, v) => (name, v, s.memory.heap.text v)

/-- Forgets reports and flags. -/
def reset (s : Session) : Session := { s with log := s.log.reset }

end Session

/-- Printed lines, each with its newline. -/
def lineOut (printed : Array String) : String :=
  printed.foldl (fun out line => out ++ line ++ "\n") ""

namespace Conduct

variable {α : Type}

/-- The answer of a guarded step, whose escape is absorbed by the log. -/
def guarded (c : Conduct α) : Option α × Session :=
  match c.answer with
  | .ok a => (some a, c.session)
  | .error e => (none, { c.session with log := c.session.log.absorb e })

/-- What was printed. -/
def output (c : Conduct α) : String := lineOut c.printed

end Conduct

end LoxLang
