import LoxLang.Failure
import LoxLang.Heap

/-!
# The machine

A `Machine` runs programs. It has a task in hand, a stack of constructs that wait for the task to be
done (`Waiting`), and the frame that variables are looked up from. A construct that moves to another
frame remembers the one to come back to, and it is brought back on every way out: at the end, at a
`return` and at a failure.
-/

namespace LoxLang

/-- The task in hand. -/
inductive Control where
  | eval (e : Expr)
  | exec (s : Stmt)
  /-- Statements in order. -/
  | run (ss : List Stmt)
  /-- The task is done. An expression leaves its value; what a statement leaves is not used. -/
  | value (v : Value)
  /-- A `return` on its way to the call that it ends. -/
  | returning (v : Value)
  | failing (f : Failure)

/-- What a call gives back when its body ends. -/
inductive CallResult where
  /-- What the body returned, or `nil`. -/
  | returned
  /-- The `this` of a frame, whatever was returned: an initializer called as a method. -/
  | receiver (frame : Nat)
  /-- A new instance, whatever was returned: an initializer run by its class. -/
  | created (object : Nat)

/-- A construct that waits for the task in hand. -/
inductive Waiting where
  | assign (target : Reference)
  | binaryRight (operator : Token) (right : Expr)
  | binary (left : Value) (operator : Token)
  | callee (paren : Token) (arguments : List Expr)
  /-- The arguments evaluated so far come last one first. -/
  | argument (callee : Value) (paren : Token) (before : List Value) (rest : List Expr)
  | get (name : Token)
  | logical (operator : Token) (right : Expr)
  | setObject (name : Token) (value : Expr)
  | setValue (object : Nat) (name : Token)
  | unary (operator : Token)
  | print
  | returnValue
  | define (name : Token)
  | branch (thenBranch elseBranch : Stmt)
  | loopTest (condition : Expr) (body : Stmt)
  | loopBody (condition : Expr) (body : Stmt)
  | superclass (name : Token) (parent : Token) (methods : List Function)
  | rest (ss : List Stmt)
  /-- The end of a block, with the frame around it. -/
  | leave (outer : Nat)
  /-- The end of a call, with the frame of the caller. -/
  | activation (caller : Nat) (result : CallResult)

/-- The waiting constructs, innermost first, and how many there are. -/
structure Stack where
  items : List Waiting
  size : Nat
  size_eq : items.length = size

namespace Stack

def empty : Stack := ⟨[], 0, rfl⟩

def push (w : Waiting) (s : Stack) : Stack :=
  ⟨w :: s.items, s.size + 1, by rw [List.length_cons, s.size_eq]⟩

/-- The innermost waiting construct and the others. -/
def pop? (s : Stack) : Option (Waiting × Stack) :=
  match s with
  | ⟨[], _, _⟩ => none
  | ⟨w :: rest, n, h⟩ => some (w, ⟨rest, n - 1, by rw [← h]; rfl⟩)

@[simp] theorem pop?_empty : empty.pop? = none := rfl

@[simp] theorem pop?_push (w : Waiting) (s : Stack) : (s.push w).pop? = some (w, s) := by
  obtain ⟨items, _, rfl⟩ := s
  rfl

end Stack

structure Machine where
  control : Control
  stack : Stack
  /-- The frame that variables are looked up from. -/
  frame : Nat
  heap : Heap
  /-- What was printed, line by line. -/
  printed : Array String
  /-- The closing parenthesis of the call entered last. -/
  callToken : Option Token

/-- What a run is given from outside: how many constructs may wait at once, and the time that
`clock` tells whenever it is asked, first, second and so on. -/
structure Setting where
  depth : Nat
  clock : Nat → Float

end LoxLang
