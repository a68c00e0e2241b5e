import LoxLang.Token

/-!
# Reports

Every stage says what is wrong with a program by a `Report`, which names what happened, the line,
and the offending lexeme with its place when there is one.
-/

namespace LoxLang

/-- What a report is about. A static report is one that the text of a program earns before it
runs. -/
inductive ReportKind where
  | static
  | runtime
  | internal
  | io
  | warning
  | other (name : String)
deriving DecidableEq

namespace ReportKind

def name : ReportKind → String
  | static => "syntax"
  | runtime => "runtime"
  | internal => "internal"
  | io => "io"
  | warning => "warning"
  | other name => name

/-- The kind that goes by a name. -/
def ofName (name : String) : ReportKind :=
  match name with
  | "syntax" => static
  | "runtime" => runtime
  | "internal" => internal
  | "io" => io
  | "warning" => warning
  | _ => other name

end ReportKind

/-- A report without an offending lexeme has column 0 and an empty lexeme. -/
structure Report where
  kind : ReportKind
  message : String
  line : Option Nat
  /-- The words that tell where on its line a static report stands. -/
  place : String
  column : Nat
  lexeme : String
deriving DecidableEq

namespace Report

/-- A report of which only the message is known. -/
def plain (kind : ReportKind) (message : String) : Report :=
  ⟨kind, message, none, "", 0, ""⟩

/-- A static report that has a line but no token. -/
def onLine (line : Nat) (message : String) : Report :=
  ⟨.static, message, some line, "", 0, ""⟩

/-- A static report at a token. -/
def atToken (token : Token) (message : String) : Report :=
  ⟨.static, message, some token.line,
    if token.kind = .eof then " at end" else " at '" ++ token.lexeme ++ "'",
    token.column, token.lexeme⟩

/-- A run-time report, at a token unless none is known. -/
def atRuntime (token : Option Token) (message : String) : Report :=
  match token with
  | none => plain .runtime message
  | some t => ⟨.runtime, message, some t.line, "", t.column, t.lexeme⟩

/-- The report of a program whose parts are nested too deeply to be read. -/
def nestedTooDeeply : Report := plain .static "Program is nested too deeply."

def lineTag (line : Nat) : String := "[line " ++ toString line ++ "]"

/-- The text of a report without colors. -/
def text (r : Report) : String :=
  match r.kind, r.line with
  | .runtime, none => r.message
  | .runtime, some line => r.message ++ "\n" ++ lineTag line
  | .warning, _ => "Warning: " ++ r.message
  | _, none => "Error: " ++ r.message
  | _, some line => lineTag line ++ " Error" ++ r.place ++ ": " ++ r.message

end Report

end LoxLang
