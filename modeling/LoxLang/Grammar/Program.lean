import LoxLang.Grammar.Statement

/-!
# Reading programs and expressions

The tokens of a source are read as a program (`readProgram`) or as one expression
(`readExpression`). Reading never fails: broken declarations are missing from the program, and the
reports say why. The one way not to come to an end is a text nested too deeply.
-/

namespace LoxLang.Grammar

open Rule

/-- What reading some tokens yields. -/
inductive Reading (α : Type) where
  | finished (value : α) (reports : List Report)
  | tooDeep (reports : List Report)

namespace Reading

variable {α : Type}

/-- The reports of a reading, in order. -/
def reports : Reading α → List Report
  | finished _ reports => reports
  | tooDeep reports => reports

/-- What was read, unless the reading was stopped. -/
def value? : Reading α → Option α
  | finished value _ => some value
  | tooDeep _ => none

end Reading

/-- Runs a rule on tokens, of which those from the first end token on are not read. A rule that
gives up reads nothing. -/
def run {α : Type} (p : Rule α) (tokens : List Token) : Reading (Option α) :=
  let stop := (tokens.find? (·.kind = .eof)).getD ⟨.eof, "", none, 1, 1⟩
  match p stop ⟨tokens.takeWhile (·.kind ≠ .eof), []⟩ with
  | .read value next => .finished (some value) next.made.reverse
  | .gaveUp next => .finished none next.made.reverse
  | .tooDeep made => .tooDeep made.reverse

/-- Declarations up to the end. -/
def program (room : Nat) : Rule (List Stmt) := piecesUntil [] (declaration room)

/-- An expression that takes all tokens. -/
def wholeExpression (room : Nat) : Rule Expr := do
  let e ← expression room
  if ← atEnd then pure e else reject "Expect end of expression."

/-- Reads tokens as a program. -/
def readProgram (room : Nat) (tokens : List Token) : Reading (List Stmt) :=
  match run (program room) tokens with
  | .finished value reports => .finished (value.getD []) reports
  | .tooDeep reports => .tooDeep reports

/-- Reads tokens as one expression; there is none after a report that gives up. -/
def readExpression (room : Nat) (tokens : List Token) : Reading (Option Expr) :=
  run (wholeExpression room) tokens

end LoxLang.Grammar
