import LoxLang.Bindings
import LoxLang.Tree

/-!
# Local scopes

A `Scope` lists the names declared in it so far and whether each may be read yet: a variable may not
before its initializer is done (`unready`). The scopes around a point form a list, innermost first;
the globals are not among them. What breaks a rule is a `Finding`.
-/

namespace LoxLang

/-- Each declared name with whether it is ready to be read. -/
abbrev Scope := Bindings Bool

/-- The ways in which a program misuses its scopes. -/
inductive Violation where
  | ownInitializer
  | redeclared
  | topLevelReturn
  | initializerValue
  | thisOutsideClass
  | superOutsideClass
  | superWithoutSuperclass
  | selfInheritance
deriving DecidableEq

namespace Violation

def message : Violation → String
  | ownInitializer => "Can't read local variable in its own initializer."
  | redeclared => "Already a variable with this name in this scope."
  | topLevelReturn => "Can't return from top-level code."
  | initializerValue => "Can't return a value from an initializer."
  | thisOutsideClass => "Can't use 'this' outside of a class."
  | superOutsideClass => "Can't use 'super' outside of a class."
  | superWithoutSuperclass => "Can't use 'super' in a class with no superclass."
  | selfInheritance => "A class can't inherit from itself."

end Violation

/-- A violation at its token. -/
abbrev Finding := Token × Violation

/-- The violation at the token, if the condition holds. -/
def findingIf (condition : Bool) (token : Token) (v : Violation) : List Finding :=
  if condition then [(token, v)] else []

/-- The function around a point, by what it may return. -/
inductive FunctionKind where
  | plain | method | initializer
deriving DecidableEq

/-- The class around a point, by what it may refer to. -/
inductive ClassKind where
  | base | derived
deriving DecidableEq

/-- What encloses a point besides its scopes: the innermost function and the innermost class. -/
structure Enclosing where
  function : Option FunctionKind
  classKind : Option ClassKind

namespace Enclosing

def topLevel : Enclosing := ⟨none, none⟩

end Enclosing

namespace Scope

/-- The number of scopes to leave to reach the nearest one that declares a name. -/
def distance? (scopes : List Scope) (name : String) : Option Nat :=
  scopes.findIdx? (·.contains name)

/-- Declares a name in the innermost scope, where it may not be read yet. Globals are not
tracked. -/
def declare (name : String) : List Scope → List Scope
  | [] => []
  | scope :: outer => scope.insert name false :: outer

/-- Lets a name of the innermost scope be read. -/
def define (name : String) : List Scope → List Scope
  | [] => []
  | scope :: outer => scope.insert name true :: outer

/-- Whether the innermost scope declares a name. -/
def redeclares (name : String) : List Scope → Bool
  | [] => false
  | scope :: _ => scope.contains name

/-- Whether a name of the innermost scope may not be read yet. -/
def unready (name : String) : List Scope → Bool
  | [] => false
  | scope :: _ => scope.get? name = some false

end Scope

end LoxLang
