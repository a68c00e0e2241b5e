import LoxLang.Prompt.Line
import LoxLang.Session

/-!
# The prompt

The prompt takes one line at a time (`take`): a command of its own, a piece of a longer input, or
the end of an input, which is then evaluated and shown if it is an expression and run otherwise
(`submit`). Every input starts with a clean log.
-/

namespace LoxLang

structure Prompt where
  session : Session
  /-- What is written in front of the next line. -/
  invitation : String
  /-- The lines of an input that is not finished yet, each with its newline. -/
  pending : String

/-- What the prompt does with one line. -/
structure Reaction where
  stop : Bool
  /-- What programs printed, line by line. -/
  printed : Array String
  /-- What the prompt itself wrote after that. -/
  echo : String
  prompt : Prompt

/-- All that a line brings to the output. -/
def Reaction.output (r : Reaction) : String := lineOut r.printed ++ r.echo

namespace Prompt

/-- The path that sources typed at the prompt go by. -/
def path : String := "<in>"

def intro : String :=
  "Lox interpreter :: Python backend\nType 'help' for more information.\n"

def help : String :=
  "Welcome to the lox interpreter!\n\n" ++
  "Lox is a small dynamically-typed scripting language with first-class functions, \n" ++
  "closures and classes. Statements end with ';', for example 'var a = 1;' or \n" ++
  "'print a + 2;'. Type an expression without the ';' to see its value. \n" ++
  "Unclosed braces continue the input on the next line. Type 'exit' to leave.\n"

/-- The invitation to a new input. -/
def firstInvitation : String := "> "

/-- The invitation to go on with an input. -/
def nextInvitation : String := ". "

def start (colored : Bool) : Prompt := ⟨.start colored, firstInvitation, ""⟩

/-- A reaction that runs nothing. -/
def say (p : Prompt) (stop : Bool) (echo : String) : Reaction := ⟨stop, #[], echo, p⟩

/-- Runs or evaluates a finished input. -/
def submit (cfg : Config) (input : String) (p : Prompt) : Reaction :=
  let s := p.session.reset
  if Line.isExpression input.toList then
    let c := s.evaluate cfg path input
    let (answer, s) := c.guarded
    let echo := match answer with
      | some (some text) => text ++ "\n"
      | _ => ""
    ⟨false, c.printed, echo, ⟨s, firstInvitation, ""⟩⟩
  else
    let c := s.run cfg path input
    ⟨false, c.printed, "", ⟨c.guarded.2, firstInvitation, ""⟩⟩

/-- Adds a line to the input, which is submitted if that finishes it. -/
def extend (cfg : Config) (line : String) (p : Prompt) : Reaction :=
  let input := Text.trimEnd (p.pending ++ line).toList
  if Line.unfinished input then
    { p with invitation := nextInvitation, pending := String.ofList input ++ "\n" }.say false ""
  else p.submit cfg (String.ofList input)

/-- At the end of all input, what is pending is run once. -/
def abandon (cfg : Config) (p : Prompt) : Reaction :=
  let c := p.session.reset.run cfg path p.pending
  ⟨true, c.printed, "\n", ⟨c.guarded.2, firstInvitation, ""⟩⟩

/-- The word that stands for the end of all input. -/
def endWord : String := "EOF"

/-- Takes one line. Commands are known only while nothing is pending; blank lines are then
skipped. -/
def take (cfg : Config) (line : String) (p : Prompt) : Reaction :=
  if p.pending.isEmpty then
    match String.ofList (Text.trim line.toList) with
    | "" => p.say false ""
    | "help" => p.say false help
    | "exit" => p.say true ""
    | "EOF" => p.say true "\n"
    | _ => p.extend cfg line
  else if line = endWord then p.abandon cfg
  else p.extend cfg line

end Prompt

end LoxLang
