import LoxLang.Report
import LoxLang.Text.Lines

/-!
# How a report is shown

On a terminal the tag of a report is colored (`paint`); below it stands the offending source line
with the lexeme underlined, if the line still reads as the report says (`diagnose?`). Without colors
the shown report is its text (`render`).
-/

namespace LoxLang

/-- The terminal styles of reports. -/
inductive Style where
  | error
  | warning
  | strong

namespace Style

/-- The codes that switch a style on. -/
def codes : Style → String
  | error => "\x1b[1m\x1b[31m"
  | warning => "\x1b[1m\x1b[35m"
  | strong => "\x1b[1m"

/-- A text in a style, if styles are wanted at all. -/
def paint (colored : Bool) (style : Style) (text : String) : String :=
  if colored then style.codes ++ text ++ "\x1b[0m" else text

end Style

namespace Report

/-- The report as it is printed. -/
def render (colored : Bool) (r : Report) : String :=
  match r.kind, r.line with
  | .runtime, none => Style.error.paint colored r.message
  | .runtime, some line =>
    Style.error.paint colored r.message ++ "\n" ++ Style.strong.paint colored (lineTag line)
  | .warning, _ => Style.warning.paint colored "Warning: " ++ r.message
  | .internal, _ =>
    Style.error.paint colored "[internal] " ++ Style.error.paint colored "Error: " ++ r.message
  | _, none => Style.error.paint colored "Error: " ++ r.message
  | _, some line =>
    Style.strong.paint colored (lineTag line) ++ Style.error.paint colored " Error"
      ++ r.place ++ ": " ++ r.message

/-- The columns of a source line that a report underlines: those of the first line of its lexeme, if
that is what stands there. -/
def quoted? (line : List Char) (r : Report) : Option (List Char × List Char × List Char) :=
  let lexeme := Text.firstLine r.lexeme.toList
  if r.lexeme.isEmpty || r.column = 0 || line.length < r.column - 1 then none
  else
    let rest := line.drop (r.column - 1)
    if lexeme.isPrefixOf rest then
      some (line.take (r.column - 1), lexeme, rest.drop lexeme.length)
    else none

/-- The source line a report is about, its lexeme underlined on a line of its own. -/
def diagnose? (colored : Bool) (source : List (List Char)) (r : Report) : Option String := do
  let number ← r.line
  if number = 0 then none
  let line ← source[number - 1]?
  let (before, lexeme, after) ← r.quoted? line
  let style := if r.kind = .warning then Style.warning else Style.error
  let underline := '^' :: List.replicate (lexeme.length - 1) '~'
  return "  " ++ String.ofList before ++ style.paint colored (String.ofList lexeme)
    ++ String.ofList after ++ "\n"
    ++ "  " ++ String.ofList (List.replicate before.length ' ')
    ++ style.paint colored (String.ofList underline)

end Report

end LoxLang
