import LoxLang.Frames
import LoxLang.Token

/-!
# Failures

The ways in which running a program fails (`Failure`). A `RuntimeError` is the program's own and has
a token; an overflow has the closing parenthesis of the call entered last. Faults (`Fault`) are
failures that no program read from text and accepted can meet, only trees put together by other
means.
-/

namespace LoxLang

inductive RuntimeError where
  | undefinedVariable (name : String)
  | undefinedProperty (name : String)
  | notCallable
  | wrongArity (expected given : Nat)
  | noProperties
  | noFields
  | operandNotNumber
  | operandsNotNumbers
  | operandsNotAddable
  | superclassNotClass
deriving DecidableEq

namespace RuntimeError

def message : RuntimeError → String
  | undefinedVariable name => undefinedVariableMessage name
  | undefinedProperty name => "Undefined property '" ++ name ++ "'."
  | notCallable => "Can only call functions and classes."
  | wrongArity expected given =>
    "Expected " ++ toString expected ++ " arguments but got " ++ toString given ++ "."
  | noProperties => "Only instances have properties."
  | noFields => "Only instances have fields."
  | operandNotNumber => "Operand must be a number."
  | operandsNotNumbers => "Operands must be numbers."
  | operandsNotAddable => "Operands must be two numbers or at least one string."
  | superclassNotClass => "Superclass must be a class."

end RuntimeError

inductive Fault where
  | unknownBinary (lexeme : String)
  | unknownUnary (lexeme : String)
  /-- A `return` that no function was there to receive. -/
  | strayReturn
  /-- A frame without the name that was to be found in it. -/
  | unbound (name : String)
  /-- Something that had to be there is not: a node of the tree, a frame, or a class. -/
  | absent
deriving DecidableEq

namespace Fault

def ofFrame : FrameFault → Fault
  | .unbound name => unbound name
  | .outside => absent

/-- What the interpreter says of a fault that it notices itself. -/
def message? : Fault → Option String
  | unknownBinary lexeme => some ("unknown binary operator '" ++ lexeme ++ "'")
  | unknownUnary lexeme => some ("unknown unary operator '" ++ lexeme ++ "'")
  | strayReturn => some "'return' escaped to top-level code."
  | unbound _ | absent => none

end Fault

inductive Failure where
  | error (token : Token) (e : RuntimeError)
  | overflow (call : Option Token)
  | fault (f : Fault)
deriving DecidableEq

end LoxLang
