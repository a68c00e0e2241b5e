import LoxLang.CommandLine.Program

/-!
# The program

The program itself. It reads the script or the lines of the terminal, and writes what
`CommandLine.Request.serve` and `Prompt.take` say; it decides nothing on its own. The time is read
once for every source that runs.
-/

namespace LoxLang.CommandLine

/-- The bytes of a file, if it can be read. -/
def readBytes (path : String) : IO (Option ByteArray) := do
  try return some (← IO.FS.readBinFile path)
  catch _ => return none

/-- The next line without its newline, or the word for the end of the input. -/
def nextLine : IO String := do
  let line ← (← IO.getStdin).getLine
  if line.isEmpty then return Prompt.endWord
  return String.ofList (Text.firstLine line.toList)

/-- The time in seconds. -/
def now : IO Float := return Float.ofNat (← IO.monoMsNow) / 1000

/-- Takes lines at the prompt until one stops it. -/
partial def converse (cfg : Config) (p : Prompt) : IO Unit := do
  let out ← IO.getStdout
  out.putStr p.invitation
  out.flush
  let line ← nextLine
  let time ← now
  let cfg := { cfg with setting := { cfg.setting with clock := fun _ => time } }
  let r := p.take cfg line
  IO.eprint (r.prompt.session.log.shownSince p.session.log)
  out.putStr r.output
  if !r.stop then converse cfg r.prompt

/-- Writes a result and gives its exit status. -/
def finish : Except StartFault Result → IO UInt32
  | .ok r => do
    IO.print r.out
    IO.eprint r.err
    return UInt32.ofNat r.status
  | .error _ => do
    IO.eprintln "lox: the recursion limit cannot be set"
    return 1

end LoxLang.CommandLine

open LoxLang CommandLine in
def main (arguments : List String) : IO UInt32 := do
  let cfg := Config.standard (← now)
  match request defaultLimit arguments with
  | .run { script := none, colored, recursionLimit, .. } =>
    match withLimit recursionLimit cfg with
    | .error f => finish (.error f)
    | .ok cfg =>
      IO.print Prompt.intro
      converse cfg (.start colored)
      return UInt32.ofNat statusOk
  | r =>
    let bytes ← match r.script? with
      | some path => readBytes path
      | none => pure none
    finish (r.serve cfg (fun _ => bytes) "")
