import LoxLang.Machine

/-!
# Steps

One step of the machine (`Machine.step`). A task is either done at once or waits for the first of
its parts; a task that is done goes to the innermost waiting construct; a `return` or a failure
passes it by, except that a call receives a `return` and every frame that was left is brought back.
The machine halts when nothing waits any more.

The depth of a run is the number of constructs that wait, and the stack overflows only where one
more would have to (`Machine.enter`). This is an abstraction. What a step does at once, such as to
declare a class, to bind a method, to make an instance without an initializer or to show a value,
takes no depth of its own here and cannot overflow halfway, whereas on a host's stack it needs a few
frames for a moment. So the limit stands for the host's limit less the few frames that the deepest
of these steps needs, and where exactly a run overflows is not said.
-/

namespace LoxLang.Machine

def yield (m : Machine) (v : Value) : Machine := { m with control := .value v }

def fail (m : Machine) (f : Failure) : Machine := { m with control := .failing f }

def error (m : Machine) (token : Token) (e : RuntimeError) : Machine := m.fail (.error token e)

def fault (m : Machine) (f : Fault) : Machine := m.fail (.fault f)

/-- Lets a construct wait while a task is done in a frame. With too many waiting the stack
overflows, and the machine stays in the frame it was in. -/
def enter (s : Setting) (w : Waiting) (frame : Nat) (task : Control) (m : Machine) : Machine :=
  if s.depth ≤ m.stack.size then m.fail (.overflow m.callToken)
  else { m with stack := m.stack.push w, frame, control := task }

/-- Lets a construct wait while a task is done. -/
def await (s : Setting) (w : Waiting) (task : Control) (m : Machine) : Machine :=
  m.enter s w m.frame task

/-- Goes on with a task in place of the one in hand. -/
def proceed (task : Control) (m : Machine) : Machine := { m with control := task }

/-! Variables. -/

/-- Reads a variable: in the frame its number of links out, or among the globals. -/
def read (r : Reference) (m : Machine) : Machine :=
  match r.hops with
  | some d =>
    match m.heap.frames.getAt m.frame d r.name.lexeme with
    | .ok v => m.yield v
    | .error f => m.fault (.ofFrame f)
  | none =>
    match m.heap.frames.get? Heap.globals r.name.lexeme with
    | some v => m.yield v
    | none => m.error r.name (.undefinedVariable r.name.lexeme)

/-- Binds a name in a frame for an assignment, which has the assigned value. -/
def store (frame : Nat) (name : Token) (v : Value) (m : Machine) : Machine :=
  { m with heap := m.heap.define frame name.lexeme v, control := .value v }

/-- Assigns to a variable. Only an existing global variable can be assigned. -/
def assign (r : Reference) (v : Value) (m : Machine) : Machine :=
  match r.hops with
  | some d =>
    match m.heap.frames.frameAt m.frame d with
    | .ok frame => m.store frame r.name v
    | .error f => m.fault (.ofFrame f)
  | none =>
    match m.heap.frames.holder? Heap.globals r.name.lexeme with
    | some frame => m.store frame r.name v
    | none => m.error r.name (.undefinedVariable r.name.lexeme)

/-- Binds a name in the current frame. -/
def define (name : Token) (v : Value) (m : Machine) : Machine :=
  { m with heap := m.heap.define m.frame name.lexeme v, control := .value .nil }

/-! Operators. -/

/-- The answer of an operator on two numbers. -/
def arithmetic? (kind : TokenKind) (x y : Float) : Option Value :=
  match kind with
  | .greater => some (.bool (y < x))
  | .greaterEqual => some (.bool (y ≤ x))
  | .less => some (.bool (x < y))
  | .lessEqual => some (.bool (x ≤ y))
  | .minus => some (.number (x - y))
  | .slash => some (.number (x / y))
  | .star => some (.number (x * y))
  | _ => none

def add (left : Value) (operator : Token) (right : Value) (m : Machine) : Machine :=
  match left, right with
  | .number x, .number y => m.yield (.number (x + y))
  | .string s, v => m.yield (.string (s ++ m.heap.text v))
  | v, .string s => m.yield (.string (m.heap.text v ++ s))
  | _, _ => m.error operator .operandsNotAddable

def binary (left : Value) (operator : Token) (right : Value) (m : Machine) : Machine :=
  match operator.kind with
  | .bangEqual => m.yield (.bool (!left.equal right))
  | .equalEqual => m.yield (.bool (left.equal right))
  | .plus => m.add left operator right
  | kind =>
    match left, right with
    | .number x, .number y =>
      match arithmetic? kind x y with
      | some v => m.yield v
      | none => m.fault (.unknownBinary operator.lexeme)
    | _, _ => m.error operator .operandsNotNumbers

def unary (operator : Token) (v : Value) (m : Machine) : Machine :=
  match operator.kind with
  | .bang => m.yield (.bool (!v.truthy))
  | .minus =>
    match v with
    | .number x => m.yield (.number (-x))
    | _ => m.error operator .operandNotNumber
  | _ => m.fault (.unknownUnary operator.lexeme)

/-! Instances and classes. -/

/-- A method bound to a receiver. -/
def bindMethod (method : Nat) (receiver : Value) (m : Machine) : Machine :=
  match m.heap.closures[method]? with
  | none => m.fault .absent
  | some c =>
    let (i, heap) := m.heap.bind c receiver
    { m with heap, control := .value (.closure i) }

/-- A property of an instance: a field, or else a method of its class bound to it. -/
def property (object : Nat) (name : Token) (m : Machine) : Machine :=
  match m.heap.instances[object]? with
  | none => m.fault .absent
  | some o =>
    match o.fields.get? name.lexeme with
    | some v => m.yield v
    | none =>
      match m.heap.method? o.cls name.lexeme with
      | some method => m.bindMethod method (.object object)
      | none => m.error name (.undefinedProperty name.lexeme)

/-- A method of the superclass, bound to the `this` in the frame just inside the frame of
`super`. -/
def superMethod (keyword : Reference) (method : Token) (m : Machine) : Machine :=
  match keyword.hops with
  | none => m.fault (.unbound keyword.name.lexeme)
  | some d =>
    match m.heap.frames.getAt m.frame d "super", m.heap.frames.getAt m.frame (d - 1) "this" with
    | .error f, _ | .ok _, .error f => m.fault (.ofFrame f)
    | .ok (.cls c), .ok receiver =>
      match m.heap.method? c method.lexeme with
      | some i => m.bindMethod i receiver
      | none => m.error method (.undefinedProperty method.lexeme)
    | .ok _, .ok _ => m.fault .absent

/-- Closures for the methods of a class, in the frame around them. Of two methods of one name the
later one counts. -/
def addMethods (frame : Nat) : List Function → Bindings Nat → Heap → Bindings Nat × Heap
  | [], methods, h => (methods, h)
  | f :: rest, methods, h =>
    let (i, h) := h.addClosure ⟨f, frame, f.name.lexeme = Heap.initName⟩
    addMethods frame rest (methods.insert f.name.lexeme i) h

/-- Declares a class. Its methods see the superclass in a frame of their own. -/
def declareClass (name : Token) (superclass : Option Nat) (methods : List Function) (m : Machine) :
    Machine :=
  let heap := m.heap.define m.frame name.lexeme .nil
  let (frame, heap) := match superclass with
    | none => (m.frame, heap)
    | some c => heap.enclose m.frame [("super", .cls c)]
  let (methods, heap) := addMethods frame methods [] heap
  let (c, heap) := heap.addClass ⟨name.lexeme, superclass, methods⟩
  match heap.frames.holder? m.frame name.lexeme with
  | some holder =>
    { m with heap := heap.define holder name.lexeme (.cls c), control := .value .nil }
  | none => { m with heap }.error name (.undefinedVariable name.lexeme)

/-! Calls. -/

/-- Binds parameters to arguments in order; of two parameters of one name the later one counts. -/
def bindParameters : List Token → List Value → Bindings Value → Bindings Value
  | p :: ps, v :: vs, bs => bindParameters ps vs (bs.insert p.lexeme v)
  | _, _, bs => bs

/-- Runs the body of a closure in a new frame inside its own. -/
def invoke (s : Setting) (c : Closure) (arguments : List Value) (result : CallResult)
    (m : Machine) : Machine :=
  let (frame, heap) :=
    m.heap.enclose c.frame (bindParameters c.declaration.parameters arguments [])
  { m with heap }.enter s (.activation m.frame result) frame (.run c.declaration.body)

/-- A new instance, set up by the initializer of its class if there is one. -/
def instantiate (s : Setting) (cls : Nat) (arguments : List Value) (m : Machine) : Machine :=
  match m.heap.method? cls Heap.initName with
  | none =>
    let (object, heap) := m.heap.addInstance cls
    { m with heap, control := .value (.object object) }
  | some method =>
    match m.heap.closures[method]? with
    | none => m.fault .absent
    | some c =>
      let (object, heap) := m.heap.addInstance cls
      let (frame, heap) := heap.encloseReceiver c (.object object)
      { m with heap }.invoke s { c with frame } arguments (.created object)

/-- Calls a value that takes as many arguments as are given. -/
def callValue (s : Setting) (callee : Value) (arguments : List Value) (m : Machine) : Machine :=
  match callee with
  | .clock => { m with heap := m.heap.tick }.yield (.number (s.clock m.heap.ticks))
  | .closure i =>
    match m.heap.closures[i]? with
    | none => m.fault .absent
    | some c => m.invoke s c arguments (if c.isInitializer then .receiver c.frame else .returned)
  | .cls c => m.instantiate s c arguments
  | _ => m.fault .absent

/-- Calls a value, if it can be called with so many arguments. -/
def call (s : Setting) (callee : Value) (paren : Token) (arguments : List Value) (m : Machine) :
    Machine :=
  match m.heap.arity? callee with
  | none => m.error paren .notCallable
  | some n =>
    if arguments.length = n then
      { m with callToken := some paren }.callValue s callee arguments
    else m.error paren (.wrongArity n arguments.length)

/-- Goes back to the caller with the answer of a call whose body left `v`. -/
def finishCall (caller : Nat) (result : CallResult) (v : Value) (m : Machine) : Machine :=
  let m := { m with frame := caller }
  match result with
  | .returned => m.yield v
  | .created object => m.yield (.object object)
  | .receiver frame =>
    match m.heap.frames.getAt frame 0 "this" with
    | .ok receiver => m.yield receiver
    | .error f => m.fault (.ofFrame f)

/-! Tasks. -/

def evaluate (s : Setting) (m : Machine) : Expr → Machine
  | .missing => m.fault .absent
  | .assign target value => m.await s (.assign target) (.eval value)
  | .binary left operator right => m.await s (.binaryRight operator right) (.eval left)
  | .call callee paren arguments => m.await s (.callee paren arguments) (.eval callee)
  | .get object name => m.await s (.get name) (.eval object)
  | .grouping inner => m.proceed (.eval inner)
  | .literal c => m.yield c.value
  | .logical left operator right => m.await s (.logical operator right) (.eval left)
  | .set object name value => m.await s (.setObject name value) (.eval object)
  | .super keyword method => m.superMethod keyword method
  | .this keyword => m.read keyword
  | .unary operator right => m.await s (.unary operator) (.eval right)
  | .variable target => m.read target

def execute (s : Setting) (m : Machine) : Stmt → Machine
  | .missing => m.yield .nil
  | .block body =>
    let (frame, heap) := m.heap.enclose m.frame []
    { m with heap }.enter s (.leave m.frame) frame (.run body)
  | .classDecl name none methods => m.declareClass name none methods
  | .classDecl name (some parent) methods =>
    m.await s (.superclass name parent.name methods) (.eval (.variable parent))
  | .expression value => m.proceed (.eval value)
  | .function f =>
    let (i, heap) := m.heap.addClosure ⟨f, m.frame, false⟩
    { m with heap }.define f.name (.closure i)
  | .ifElse condition thenBranch elseBranch =>
    m.await s (.branch thenBranch elseBranch) (.eval condition)
  | .print value => m.await s .print (.eval value)
  | .returning _ none => m.proceed (.returning .nil)
  | .returning _ (some value) => m.await s .returnValue (.eval value)
  | .varDecl name none => m.define name .nil
  | .varDecl name (some value) => m.await s (.define name) (.eval value)
  | .whileLoop condition body => m.await s (.loopTest condition body) (.eval condition)

/-- The first of some statements, the others waiting. -/
def runAll (s : Setting) (m : Machine) : List Stmt → Machine
  | [] => m.yield .nil
  | first :: rest => m.await s (.rest rest) (.exec first)

/-- Evaluates further arguments of a call, or calls when there are none left. -/
def evaluateArguments (s : Setting) (callee : Value) (paren : Token) (before : List Value)
    (m : Machine) : List Expr → Machine
  | [] => m.call s callee paren before.reverse
  | e :: rest => m.await s (.argument callee paren before rest) (.eval e)

/-- Gives a done task to the construct that waited for it. -/
def receive (s : Setting) (m : Machine) (v : Value) : Waiting → Machine
  | .assign target => m.assign target v
  | .binaryRight operator right => m.await s (.binary v operator) (.eval right)
  | .binary left operator => m.binary left operator v
  | .callee paren arguments => m.evaluateArguments s v paren [] arguments
  | .argument callee paren before rest => m.evaluateArguments s callee paren (v :: before) rest
  | .get name =>
    match v with
    | .object i => m.property i name
    | _ => m.error name .noProperties
  | .logical operator right =>
    if (if operator.kind = .kwOr then v.truthy else !v.truthy) then m.yield v
    else m.proceed (.eval right)
  | .setObject name value =>
    match v with
    | .object i => m.await s (.setValue i name) (.eval value)
    | _ => m.error name .noFields
  | .setValue object name =>
    { m with heap := m.heap.setField object name.lexeme v, control := .value v }
  | .unary operator => m.unary operator v
  | .print => { m with printed := m.printed.push (m.heap.text v), control := .value .nil }
  | .returnValue => m.proceed (.returning v)
  | .define name => m.define name v
  | .branch thenBranch elseBranch =>
    m.proceed (.exec (if v.truthy then thenBranch else elseBranch))
  | .loopTest condition body =>
    if v.truthy then m.await s (.loopBody condition body) (.exec body) else m.yield .nil
  | .loopBody condition body => m.await s (.loopTest condition body) (.eval condition)
  | .superclass name parent methods =>
    match v with
    | .cls c => m.declareClass name (some c) methods
    | _ => m.error parent .superclassNotClass
  | .rest ss => m.proceed (.run ss)
  | .leave outer => { m with frame := outer, control := .value .nil }
  | .activation caller result => m.finishCall caller result .nil

/-- Passes a `return` to a waiting construct. A call ends; anything else is left. -/
def receiveReturn (m : Machine) (v : Value) : Waiting → Machine
  | .leave outer => { m with frame := outer }
  | .activation caller result => m.finishCall caller result v
  | _ => m

/-- Passes a failure to a waiting construct, which is left. -/
def receiveFailure (m : Machine) : Waiting → Machine
  | .leave outer => { m with frame := outer }
  | .activation caller _ => { m with frame := caller }
  | _ => m

/-- Whether nothing is left to do. A `return` that nothing waits for is still to fail. -/
def halted (m : Machine) : Bool :=
  match m.control, m.stack.items with
  | .value _, [] => true
  | .failing _, [] => true
  | _, _ => false

/-- One step. A machine that has halted stays as it is. -/
def step (s : Setting) (m : Machine) : Machine :=
  match m.control with
  | .eval e => m.evaluate s e
  | .exec t => m.execute s t
  | .run ts => m.runAll s ts
  | .value v =>
    match m.stack.pop? with
    | some (w, stack) => { m with stack }.receive s v w
    | none => m
  | .returning v =>
    match m.stack.pop? with
    | some (w, stack) => { m with stack }.receiveReturn v w
    | none => m.fault .strayReturn
  | .failing _ =>
    match m.stack.pop? with
    | some (w, stack) => { m with stack }.receiveFailure w
    | none => m

/-- Steps until the machine halts, but no more than so many. -/
def run (s : Setting) : Nat → Machine → Machine
  | 0, m => m
  | n + 1, m => if m.halted then m else run s n (m.step s)

end LoxLang.Machine
