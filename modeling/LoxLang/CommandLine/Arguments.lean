import LoxLang.Text.Digit
import LoxLang.Text.Quoted

/-!
# Arguments of the command line

Options and the script come in any order; a long option may be cut to any beginning that no other
one shares and may have its value behind an equals sign; after the argument `--` everything is
positional. All arguments are classified before any takes effect (`classifyAll`); then they take
effect from left to right (`apply`), and the first that asks for help or the version, or is wrong,
decides (`request`).
-/

namespace LoxLang.CommandLine

inductive Flag where
  | help | tokens | noColor | recursionLimit | version
deriving DecidableEq

namespace Flag

/-- The spellings of the options, in the order in which they are listed. -/
def spellings : List (String × Flag) :=
  [("-h", help), ("--help", help), ("--tokens", tokens), ("--no-color", noColor),
   ("--recursion-limit", recursionLimit), ("--version", version)]

/-- How complaints name an option. -/
def display : Flag → String
  | help => "-h/--help"
  | tokens => "--tokens"
  | noColor => "--no-color"
  | recursionLimit => "--recursion-limit"
  | version => "--version"

end Flag

/-- An argument as it is classified. -/
inductive Argument where
  /-- The argument `--`. -/
  | separator
  | positional (text : String)
  /-- An option, and the value behind an equals sign. -/
  | option (flag : Flag) (attached : Option String)
  /-- The option `-h` with more characters behind it; an equals sign right behind it is left out. -/
  | letters (tail : List Char)
  /-- What looks like an option but is none. -/
  | unknown (text : String)
deriving DecidableEq

/-- What the arguments ask for. -/
structure Options where
  script : Option String
  tokens : Bool
  colored : Bool
  /-- Missing if it was given as `--`, which stands for no value. -/
  recursionLimit : Option Int

/-- How reading the arguments comes out. -/
inductive Request where
  | help
  | version
  | misuse (message : String)
  | run (options : Options)

/-- Splits a text at its first equals sign. -/
def splitEqual (cs : List Char) : Option (String × String) :=
  match cs.dropWhile (· != '=') with
  | [] => none
  | _ :: after => some (String.ofList (cs.takeWhile (· != '=')), String.ofList after)

/-- A text without the newline at its end, if there is one. -/
def dropNewline (cs : List Char) : List Char :=
  if cs.getLast? = some '\n' then cs.dropLast else cs

/-- Whether an argument is a negative number, which no option looks like. -/
def isNegativeNumber (cs : List Char) : Bool :=
  match dropNewline cs with
  | '-' :: rest =>
    match rest.dropWhile Text.isDigit with
    | [] => !rest.isEmpty
    | '.' :: fraction => !fraction.isEmpty && fraction.all Text.isDigit
    | _ => false
  | _ => false

/-- The options that an argument may be short for, with their spellings. -/
def candidates (text : String) : List (String × Argument) :=
  match text.toList with
  | '-' :: '-' :: rest =>
    let (beginning, attached) := match splitEqual ('-' :: '-' :: rest) with
      | some (name, value) => (name, some value)
      | none => (text, none)
    Flag.spellings.filterMap fun (name, flag) =>
      if beginning.toList.isPrefixOf name.toList then some (name, .option flag attached) else none
  | '-' :: 'h' :: tail => [("-h", .letters tail)]
  | _ => []

/-- The option of exactly this spelling. -/
def spelled? (text : String) : Option Argument :=
  (Flag.spellings.lookup text).map fun flag => .option flag none

/-- The option whose spelling stands in front of an equals sign. -/
def valued? (cs : List Char) : Option Argument := do
  let (name, value) ← splitEqual cs
  let flag ← Flag.spellings.lookup name
  return if name = "-h" then .letters value.toList else .option flag (some value)

/-- Classifies an argument other than `--`; an abbreviation that several options share is an
error. -/
def classify (text : String) : Except String Argument :=
  match text.toList with
  | '-' :: rest =>
    if let some a := spelled? text then .ok a
    else if rest.isEmpty then .ok (.positional text)
    else if let some a := valued? ('-' :: rest) then .ok a
    else
      match candidates text with
      | [(_, a)] => .ok a
      | [] =>
        if isNegativeNumber ('-' :: rest) || rest.contains ' ' then .ok (.positional text)
        else .ok (.unknown text)
      | several =>
        .error ("ambiguous option: " ++ text ++ " could match " ++
          String.intercalate ", " (several.map (·.1)))
  | _ => .ok (.positional text)

/-- Classifies all arguments. -/
def classifyAll : List String → Except String (List Argument)
  | [] => .ok []
  | "--" :: rest => .ok (.separator :: rest.map .positional)
  | text :: rest => do
    let a ← classify text
    let more ← classifyAll rest
    return a :: more

/-- The arguments that took effect so far. -/
structure Progress where
  options : Options
  /-- Whether the place of the script is taken, possibly by nothing. -/
  scriptTaken : Bool
  /-- The arguments that have no place, the last one first. -/
  extras : List String

namespace Progress

def leftOver (text : String) (p : Progress) : Progress := { p with extras := text :: p.extras }

def takeScript (script : Option String) (p : Progress) : Progress :=
  { p with options := { p.options with script }, scriptTaken := true }

def takeLimit (limit : Option Int) (p : Progress) : Progress :=
  { p with options := { p.options with recursionLimit := limit } }

end Progress

/-- The complaint about an option. -/
def complaint (flag : Flag) (problem : String) : Request :=
  .misuse ("argument " ++ flag.display ++ ": " ++ problem)

/-- Sets the recursion limit to the number that a text stands for. -/
def setLimit (text : String) (p : Progress) : Except Request Progress :=
  match Text.integer? text.toList with
  | some n => .ok (p.takeLimit (some n))
  | none => .error (complaint .recursionLimit ("invalid int value: " ++ Text.quoted text))

/-- Lets an option without value take effect. -/
def setFlag (flag : Flag) (p : Progress) : Except Request Progress :=
  match flag with
  | .help => .error .help
  | .version => .error .version
  | .tokens => .ok { p with options := { p.options with tokens := true } }
  | .noColor => .ok { p with options := { p.options with colored := false } }
  | .recursionLimit => .ok p

/-- The complaint about a value that an option does not take. -/
def ignored (flag : Flag) (value : String) : Request :=
  complaint flag ("ignored explicit argument " ++ Text.quoted value)

/-- What `-h` with more characters behind it asks for: options of one letter may be written
together, of which there is no other. -/
def askLetters : List Char → Request
  | ['h'] => .help
  | 'h' :: rest => askLetters rest
  | tail => ignored .help (String.ofList tail)

/-- Lets an option with an attached value take effect; only the recursion limit has a value. -/
def setAttached (flag : Flag) (value : String) (p : Progress) : Except Request Progress :=
  match flag with
  | .recursionLimit => if value = "--" then .ok (p.takeLimit none) else setLimit value p
  | _ => .error (ignored flag value)

/-- Lets classified arguments take effect from left to right. The first positional one is the
script; a separator beside it belongs to it. -/
def apply : List Argument → Progress → Except Request Progress
  | [], p => .ok p
  | .unknown text :: rest, p => apply rest (p.leftOver text)
  | .letters tail :: _, _ => .error (askLetters tail)
  | .option flag (some value) :: rest, p => do apply rest (← setAttached flag value p)
  | .option .recursionLimit none :: .positional value :: rest, p => do
    apply rest (← setLimit value p)
  | .option .recursionLimit none :: _, _ =>
    .error (complaint .recursionLimit "expected one argument")
  | .option flag none :: rest, p => do apply rest (← setFlag flag p)
  | .separator :: .positional text :: rest, p =>
    if p.scriptTaken then apply rest ((p.leftOver "--").leftOver text)
    else apply rest (p.takeScript (some text))
  | .separator :: rest, p =>
    apply rest (if p.scriptTaken then p.leftOver "--" else p.takeScript none)
  | .positional text :: .separator :: rest, p =>
    if p.scriptTaken then apply (.separator :: rest) (p.leftOver text)
    else apply rest (p.takeScript (some text))
  | .positional text :: rest, p =>
    if p.scriptTaken then apply rest (p.leftOver text) else apply rest (p.takeScript (some text))

/-- What some arguments ask for, when the recursion limit is the given one unless they say
otherwise. -/
def request (defaultLimit : Int) (arguments : List String) : Request :=
  match classifyAll arguments with
  | .error message => .misuse message
  | .ok classified =>
    match apply classified ⟨⟨none, false, true, some defaultLimit⟩, false, []⟩ with
    | .error r => r
    | .ok p =>
      if !p.extras.isEmpty then
        .misuse ("unrecognized arguments: " ++ String.intercalate " " p.extras.reverse)
      else if p.options.tokens && p.options.script.isNone then
        .misuse "--tokens requires a script"
      else .run p.options

end LoxLang.CommandLine
