import LoxLang.Text.Blank

/-!
# Judging an input

An input is judged by its text alone: whether it goes on in the next line (`unfinished`), and
whether it is meant as an expression (`isExpression`). Quotes and comments are told apart from code,
all else is not looked at.
-/

namespace LoxLang.Line

/-- What the characters of an input belong to. -/
inductive Region where
  | code | quoted | comment

/-- Whether the rest of an input leaves a string, a brace or a parenthesis open, of which `depth`
were opened more often than closed. -/
def leavesOpen : Region → Int → List Char → Bool
  | .quoted, _, [] => true
  | _, depth, [] => 0 < depth
  | .quoted, depth, c :: rest => leavesOpen (if c = '"' then .code else .quoted) depth rest
  | .comment, depth, c :: rest => leavesOpen (if c = '\n' then .code else .comment) depth rest
  | .code, depth, '/' :: '/' :: rest => leavesOpen .comment depth rest
  | .code, depth, c :: rest =>
    match c with
    | '"' => leavesOpen .quoted depth rest
    | '(' | '{' => leavesOpen .code (depth + 1) rest
    | ')' | '}' => leavesOpen .code (depth - 1) rest
    | _ => leavesOpen .code depth rest

/-- Whether an input continues on the next line. -/
def unfinished (input : List Char) : Bool := leavesOpen .code 0 input

/-- Whether an input is meant as an expression: it is not blank and ends neither with a semicolon
nor with a closing brace. -/
def isExpression (input : List Char) : Bool :=
  match (Text.trim input).getLast? with
  | none => false
  | some c => c != ';' && c != '}'

end LoxLang.Line
