import LoxLang.Machine.Step
import LoxLang.Report

/-!
# Interpreting

Running a program (`interpret`) or an expression (`evaluate`) from start to end. What stays from one
run to the next is the `Memory`: the heap and the current frame, with no call recorded.
-/

namespace LoxLang

/-- What the interpreter keeps between two runs. -/
structure Memory where
  heap : Heap
  /-- The current frame. -/
  frame : Nat
  /-- The call entered last, while a program runs. -/
  callToken : Option Token

namespace Memory

def initial : Memory := ⟨.initial, Heap.globals, none⟩

/-- The machine at the start of a task. -/
def start (mem : Memory) (task : Control) : Machine :=
  ⟨task, .empty, mem.frame, mem.heap, #[], mem.callToken⟩

end Memory

/-- How a run ends. -/
inductive Ending where
  | value (v : Value)
  | failed (f : Failure)
  /-- The run was given too few steps. -/
  | unfinished

/-- The frame that a waiting construct brings back when it is left. -/
def Waiting.frameAfter (current : Nat) : Waiting → Nat
  | leave outer => outer
  | activation caller _ => caller
  | _ => current

namespace Machine

/-- The frame that is current again once everything that waits has been left. -/
def homeFrame (m : Machine) : Nat := m.stack.items.foldl Waiting.frameAfter m.frame

/-- How the run of a machine ended, if it has. -/
def ending (m : Machine) : Ending :=
  match m.stack.items, m.control with
  | [], .value v => .value v
  | [], .failing f => .failed f
  | _, _ => .unfinished

end Machine

/-- What comes out of a run. -/
structure Run where
  ending : Ending
  printed : Array String
  memory : Memory

namespace Memory

/-- Runs a task for at most so many steps. The record of the last call is dropped at the end, and
the frame is brought back, also by a run that is interrupted. -/
def perform (s : Setting) (steps : Nat) (task : Control) (mem : Memory) : Run :=
  let m := (mem.start task).run s steps
  ⟨m.ending, m.printed, ⟨m.heap, m.homeFrame, none⟩⟩

/-- Runs the statements of a program in order. -/
def interpret (s : Setting) (steps : Nat) (program : List Stmt) (mem : Memory) : Run :=
  mem.perform s steps (.run program)

/-- Evaluates an expression. -/
def evaluate (s : Setting) (steps : Nat) (e : Expr) (mem : Memory) : Run :=
  mem.perform s steps (.eval e)

end Memory

namespace Run

/-- The text of the value that an expression has. -/
def text? (r : Run) : Option String :=
  match r.ending with
  | .value v => some (r.memory.heap.text v)
  | _ => none

end Run

end LoxLang
