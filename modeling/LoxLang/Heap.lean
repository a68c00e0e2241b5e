import LoxLang.Frames
import LoxLang.Number
import LoxLang.Tree

/-!
# The heap

The values of Lox (`Value`) and the heap they live in (`Heap`). Functions, classes and instances are
known by the number under which the heap holds them, so two of them are equal only if they are the
same one; every execution of a declaration and every access to a method makes a new one.
-/

namespace LoxLang

inductive Value where
  | nil
  | bool (b : Bool)
  | number (x : Float)
  | string (s : String)
  /-- The built-in function `clock`. -/
  | clock
  | closure (id : Nat)
  | cls (id : Nat)
  | object (id : Nat)
deriving DecidableEq, Inhabited

/-- A function with the frame it was declared in. A bound method's frame holds its `this`. -/
structure Closure where
  declaration : Function
  frame : Nat
  isInitializer : Bool

structure Class where
  name : String
  superclass : Option Nat
  /-- The closures of the methods, not bound to any instance. -/
  methods : Bindings Nat

structure Instance where
  cls : Nat
  fields : Bindings Value

structure Heap where
  frames : Frames Value
  closures : Array Closure
  classes : Array Class
  instances : Array Instance
  /-- How often the time was asked for. -/
  ticks : Nat

namespace Constant

/-- The value a literal stands for. -/
def value : Constant → Value
  | nil => .nil
  | bool b => .bool b
  | number x => .number x
  | string s => .string s

end Constant

namespace Value

/-- `nil` and `false` count as false, everything else as true. -/
def truthy : Value → Bool
  | nil => false
  | bool b => b
  | _ => true

/-- Equality without conversion: values of different kinds are never equal. -/
def equal : Value → Value → Bool
  | nil, nil => true
  | bool a, bool b => a == b
  | number x, number y => Number.equal x y
  | string s, string t => s == t
  | clock, clock => true
  | closure i, closure j => i == j
  | cls i, cls j => i == j
  | object i, object j => i == j
  | _, _ => false

end Value

namespace Heap

/-- The number of the frame of global variables. -/
def globals : Nat := 0

/-- The heap before any program has run: one frame, with `clock` in it. -/
def initial : Heap :=
  ⟨⟨#[⟨none, [("clock", .clock)]⟩]⟩, #[], #[], #[], 0⟩

/-- Makes a frame inside another. -/
def enclose (h : Heap) (outer : Nat) (bindings : Bindings Value) : Nat × Heap :=
  (h.frames.all.size, { h with frames := (h.frames.make (some outer) bindings).2 })

/-- Binds a name in a frame. -/
def define (h : Heap) (frame : Nat) (name : String) (v : Value) : Heap :=
  { h with frames := h.frames.define frame name v }

def addClosure (h : Heap) (c : Closure) : Nat × Heap :=
  (h.closures.size, { h with closures := h.closures.push c })

def addClass (h : Heap) (c : Class) : Nat × Heap :=
  (h.classes.size, { h with classes := h.classes.push c })

def addInstance (h : Heap) (cls : Nat) : Nat × Heap :=
  (h.instances.size, { h with instances := h.instances.push ⟨cls, []⟩ })

def setField (h : Heap) (object : Nat) (name : String) (v : Value) : Heap :=
  { h with
    instances := h.instances.modify object fun i => { i with fields := i.fields.insert name v } }

/-- Counts that the time is asked for. -/
def tick (h : Heap) : Heap := { h with ticks := h.ticks + 1 }

/-- The method of the first of at most `n` classes along the superclasses that has one of the
name. -/
def methodWithin (h : Heap) (name : String) : Nat → Nat → Option Nat
  | 0, _ => none
  | n + 1, i =>
    match h.classes[i]? with
    | none => none
    | some c =>
      match c.methods.get? name with
      | some method => some method
      | none =>
        match c.superclass with
        | none => none
        | some j => h.methodWithin name n j

/-- The method that instances of a class have under a name. A superclass is older than its
subclasses, so there are at most `cls + 1` classes to look at. -/
def method? (h : Heap) (cls : Nat) (name : String) : Option Nat :=
  h.methodWithin name (cls + 1) cls

/-- A frame with the receiver of a method, inside the method's own frame. -/
def encloseReceiver (h : Heap) (method : Closure) (receiver : Value) : Nat × Heap :=
  h.enclose method.frame [("this", receiver)]

/-- Binds a method to a receiver: a new closure in a frame that holds `this`. -/
def bind (h : Heap) (method : Closure) (receiver : Value) : Nat × Heap :=
  let (frame, h) := h.encloseReceiver method receiver
  h.addClosure { method with frame }

/-- The name of the methods that set up new instances. -/
def initName : String := "init"

def closureArity (h : Heap) (i : Nat) : Nat :=
  (h.closures[i]?.map fun c => c.declaration.parameters.length).getD 0

/-- How many arguments a value takes when it can be called. A class takes those of its
initializer. -/
def arity? (h : Heap) : Value → Option Nat
  | .clock => some 0
  | .closure i => some (h.closureArity i)
  | .cls i => some (((h.method? i initName).map h.closureArity).getD 0)
  | _ => none

def className (h : Heap) (i : Nat) : String := (h.classes[i]?.map Class.name).getD ""

/-- The text of a value as `print` shows it. -/
def text (h : Heap) : Value → String
  | .nil => "nil"
  | .bool true => "true"
  | .bool false => "false"
  | .number x => Number.text x
  | .string s => s
  | .clock => "<native fn>"
  | .closure i =>
    "<fn " ++ (h.closures[i]?.map fun c => c.declaration.name.lexeme).getD "" ++ ">"
  | .cls i => h.className i
  | .object i => (h.instances[i]?.map fun o => h.className o.cls).getD "" ++ " instance"

end Heap

end LoxLang
