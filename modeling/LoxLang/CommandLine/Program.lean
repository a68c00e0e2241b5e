import LoxLang.CommandLine.Arguments
import LoxLang.Prompt

/-!
# The program

The program as a function of its arguments, the files it can read and its input (`perform`). It runs
a script (`runScript`), lists a script's tokens, or takes the input line by line at the prompt
(`runPrompt`), and its exit status says how that went (`exitStatus`).
-/

namespace LoxLang.CommandLine

/-- Exit statuses. -/
def statusOk : Nat := 0
def statusUsage : Nat := 64
def statusBadProgram : Nat := 65
def statusUnreadable : Nat := 66
def statusFailed : Nat := 70

/-- The exit status that a log calls for. -/
def exitStatus (log : Log) : Nat :=
  if log.hadUnreadable then statusUnreadable
  else if log.hadError then statusBadProgram
  else if log.hadRuntimeError then statusFailed
  else statusOk

def usage : String :=
  "usage: lox [-h] [--tokens] [--no-color] [--recursion-limit N] [--version]\n" ++
  "           [script]\n"

def helpText : String :=
  usage ++
  "\n" ++
  "Tree-walking interpreter for the lox scripting language.\n" ++
  "\n" ++
  "positional arguments:\n" ++
  "  script               file to interpret and run (if empty, goes to command-\n" ++
  "                       line mode)\n" ++
  "\n" ++
  "options:\n" ++
  "  -h, --help           show this help message and exit\n" ++
  "  --tokens             only scan the script and print its tokens\n" ++
  "  --no-color           disable colors in error messages\n" ++
  "  --recursion-limit N  host recursion limit; lox calls nest to about a tenth\n" ++
  "                       of it (default: 100000)\n" ++
  "  --version            show program's version number and exit\n"

def versionText : String := "lox 1.0.0\n"

/-- What a run of the program leaves: its exit status and what it wrote. -/
structure Result where
  status : Nat
  out : String
  err : String
deriving DecidableEq

/-- The recursion limit unless the arguments set one. -/
def defaultLimit : Int := 100000

/-- The greatest recursion limit there is. -/
def greatestLimit : Int := 2147483647

/-- Why the program cannot start at all. -/
inductive StartFault where
  /-- The recursion limit has no value. -/
  | limitMissing
  /-- The recursion limit is greater than there is. -/
  | limitTooGreat
deriving DecidableEq

/-- How much of the recursion limit the walk of the resolver takes for a node. -/
def framesPerNode : Nat := 3

/-- Raises the depth of the resolver's walk and of runs to a limit. Lower limits have no effect. -/
def withLimit (limit : Option Int) (cfg : Config) : Except StartFault Config :=
  match limit with
  | none => .error .limitMissing
  | some n =>
    if greatestLimit < n then .error .limitTooGreat
    else .ok { cfg with
      levels := max cfg.levels (n.toNat / framesPerNode)
      setting := { cfg.setting with depth := max cfg.setting.depth n.toNat } }

/-- Line ends as programs see them: a carriage return, with or without a newline behind it, is a
newline. -/
def unifyNewlines (cs : List Char) : List Char :=
  let (out, _) := cs.foldl (fun (out, afterReturn) c =>
    if c = '\r' then ('\n' :: out, true)
    else if c = '\n' && afterReturn then (out, false)
    else (c :: out, false)) ([], false)
  out.reverse

/-- The text of a script, if its bytes are well-formed UTF-8. -/
def decodeScript (bytes : ByteArray) : Option String :=
  (String.fromUTF8? bytes).map fun s => String.ofList (unifyNewlines s.toList)

/-- The log's verdict on a step of a script run, in which unknown faults are fatal. -/
def conclude (c : Conduct Unit) : Result :=
  let s := c.guarded.2
  let status := match c.answer with
    | .ok _ => exitStatus s.log
    | .error e =>
      match e.exitCode? true with
      | some code => (code.getD 0).toNat
      | none => exitStatus s.log
  ⟨status, c.output, s.log.shown⟩

/-- Why a script of which nothing is known cannot be read. No file has a null character in its
path, and asking for one is a fault of its own. -/
def unreadable (path : String) : Escape :=
  if path.contains '\x00' then .unknown "ValueError" "embedded null byte" else .unreadable path

/-- Runs a script, or lists its tokens, given what its file holds, if anything. -/
def runScript (cfg : Config) (options : Options) (path : String) (bytes : Option ByteArray) :
    Result :=
  let s := Session.start options.colored
  match bytes.bind decodeScript with
  | none => conclude (s.stop (.error (unreadable path)))
  | some source =>
    if options.tokens then
      let (listing, s) := s.tokens path source
      conclude ⟨.ok (), listing.toArray, s⟩
    else
      let c := s.run cfg path source
      conclude { c with answer := c.answer.map fun _ => () }

/-- The lines of an input, without their newlines; the last one need not have one. -/
def inputLines (input : String) : List String :=
  let ls := Text.lines input.toList
  let ls := if ls.getLast? = some [] then ls.dropLast else ls
  ls.map String.ofList

/-- Takes lines at the prompt until one stops it; the end of the input counts as a line that does.
What is written is added behind `out`. -/
def takeLines (cfg : Config) : List String → Prompt → String → String × Prompt
  | [], p, out =>
    let r := p.take cfg Prompt.endWord
    (out ++ p.invitation ++ r.output, r.prompt)
  | line :: rest, p, out =>
    let r := p.take cfg line
    let out := out ++ p.invitation ++ r.output
    if r.stop then (out, r.prompt) else takeLines cfg rest r.prompt out

/-- Runs the prompt over an input. Errors at the prompt say nothing about the program's own
success. -/
def runPrompt (cfg : Config) (options : Options) (input : String) : Result :=
  let (out, p) := takeLines cfg (inputLines input) (.start options.colored) Prompt.intro
  ⟨exitStatus p.session.reset.log, out, p.session.log.shown⟩

/-- The script that a request is about. -/
def Request.script? : Request → Option String
  | run options => options.script
  | _ => none

/-- Does what is requested, given what the files hold and the input. -/
def Request.serve (cfg : Config) (file? : String → Option ByteArray) (input : String) :
    Request → Except StartFault Result
  | help => .ok ⟨statusOk, helpText, ""⟩
  | version => .ok ⟨statusOk, versionText, ""⟩
  | misuse message => .ok ⟨statusUsage, "", usage ++ "lox: error: " ++ message ++ "\n"⟩
  | run options => do
    let cfg ← withLimit options.recursionLimit cfg
    match options.script with
    | some path => return runScript cfg options path (file? path)
    | none => return runPrompt cfg options input

/-- What the program does with its arguments. -/
def perform (cfg : Config) (arguments : List String) (file? : String → Option ByteArray)
    (input : String) : Except StartFault Result :=
  (request defaultLimit arguments).serve cfg file? input

end LoxLang.CommandLine
