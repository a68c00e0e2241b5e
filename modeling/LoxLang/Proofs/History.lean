import LoxLang.Machine.Interpret
import LoxLang.Proofs.Sites

/-!
# What happens to frames

Every step of the machine makes some frames and stores some values, in an order; `Machine.events`
lists them, each frame with the region that it was made for and each store with the part of the
program that made it. Replaying the events gives the frames (`Machine.frames_step`).
-/

namespace LoxLang

/-- What gives a name its value. -/
inductive Writer where
  /-- A declaration, of a parameter at a call too. -/
  | declaration (name : Token)
  | assignment (target : Reference)
  | receiver
  | superclass

/-- A value stored under a name of a frame. -/
structure Storing where
  frame : Nat
  name : String
  value : Value
  writer : Writer

inductive Event where
  /-- A frame was made inside another. -/
  | made (outer : Nat) (ρ : Region)
  | stored (e : Storing)

namespace Event

def perform (fs : Frames Value) : Event → Frames Value
  | made outer _ => (fs.make (some outer) []).2
  | stored e => fs.define e.frame e.name e.value

/-- What events make of frames. -/
def replay (es : List Event) (fs : Frames Value) : Frames Value := es.foldl perform fs

def region? : Event → Option Region
  | made _ ρ => some ρ
  | stored _ => none

def storing? : Event → Option Storing
  | made .. => none
  | stored e => some e

/-- The regions of the frames made. -/
def regions (es : List Event) : List Region := es.filterMap region?

/-- The stores among events. -/
def storings (es : List Event) : List Storing := es.filterMap storing?

/-- A declaration that runs in a frame. -/
def declare (frame : Nat) (name : Token) (v : Value) : Event :=
  stored ⟨frame, name.lexeme, v, .declaration name⟩

/-- A method is bound, when there are so many frames. -/
def binding (size : Nat) (method : Closure) (receiver : Value) : List Event :=
  [made method.frame (.receiver method.declaration), stored ⟨size, "this", receiver, .receiver⟩]

/-- A closure is called, when there are so many frames. -/
def calling (size : Nat) (c : Closure) (arguments : List Value) : List Event :=
  made c.frame (.call c.declaration) ::
    (c.declaration.parameters.zip arguments).map fun (p, v) => declare size p v

@[simp] theorem replay_nil (fs : Frames Value) : replay [] fs = fs := rfl

@[simp] theorem replay_cons (e : Event) (es : List Event) (fs : Frames Value) :
    replay (e :: es) fs = replay es (e.perform fs) := rfl

theorem replay_append (es es' : List Event) (fs : Frames Value) :
    replay (es ++ es') fs = replay es' (replay es fs) := List.foldl_append

@[simp] theorem regions_nil : regions [] = [] := rfl

@[simp] theorem regions_made (outer : Nat) (ρ : Region) (es : List Event) :
    regions (made outer ρ :: es) = ρ :: regions es := rfl

@[simp] theorem regions_stored (e : Storing) (es : List Event) :
    regions (stored e :: es) = regions es := rfl

theorem regions_append (es es' : List Event) : regions (es ++ es') = regions es ++ regions es' :=
  List.filterMap_append ..

theorem regions_binding (size : Nat) (c : Closure) (receiver : Value) :
    regions (binding size c receiver) = [.receiver c.declaration] := rfl

theorem regions_calling (size : Nat) (c : Closure) (arguments : List Value) :
    regions (calling size c arguments) = [.call c.declaration] := by
  simp [calling, regions, region?, declare, List.filterMap_map, Function.comp_def]

@[simp] theorem storings_nil : storings [] = [] := rfl

@[simp] theorem storings_made (outer : Nat) (ρ : Region) (es : List Event) :
    storings (made outer ρ :: es) = storings es := rfl

@[simp] theorem storings_stored (e : Storing) (es : List Event) :
    storings (stored e :: es) = e :: storings es := rfl

theorem storings_append (es es' : List Event) :
    storings (es ++ es') = storings es ++ storings es' := List.filterMap_append ..

theorem mem_storings : e ∈ storings es ↔ .stored e ∈ es := by
  simp only [storings, List.mem_filterMap]
  constructor
  · rintro ⟨ev, hev, he⟩
    cases ev with
    | made => cases he
    | stored s => cases he; exact hev
  · exact fun h => ⟨_, h, rfl⟩

end Event

namespace Machine

open Event

/-- The number of frames made so far. -/
def size (m : Machine) : Nat := m.heap.frames.all.size

def assignEvents (r : Reference) (v : Value) (m : Machine) : List Event :=
  match r.hops with
  | some d =>
    match m.heap.frames.frameAt m.frame d with
    | .ok frame => [.stored ⟨frame, r.name.lexeme, v, .assignment r⟩]
    | .error _ => []
  | none =>
    match m.heap.frames.holder? Heap.globals r.name.lexeme with
    | some frame => [.stored ⟨frame, r.name.lexeme, v, .assignment r⟩]
    | none => []

def bindMethodEvents (method : Nat) (receiver : Value) (m : Machine) : List Event :=
  match m.heap.closures[method]? with
  | none => []
  | some c => binding m.size c receiver

def propertyEvents (object : Nat) (name : Token) (m : Machine) : List Event :=
  match m.heap.instances[object]? with
  | none => []
  | some o =>
    match o.fields.get? name.lexeme, m.heap.method? o.cls name.lexeme with
    | none, some method => m.bindMethodEvents method (.object object)
    | _, _ => []

def superMethodEvents (keyword : Reference) (method : Token) (m : Machine) : List Event :=
  match keyword.hops with
  | none => []
  | some d =>
    match m.heap.frames.getAt m.frame d "super", m.heap.frames.getAt m.frame (d - 1) "this" with
    | .ok (.cls c), .ok receiver =>
      match m.heap.method? c method.lexeme with
      | some i => m.bindMethodEvents i receiver
      | none => []
    | _, _ => []

/-- The name of a class is bound twice: to `nil` before the class is there and then to the class. -/
def declareClassEvents (name : Token) (superclass : Option Nat) (methods : List Function)
    (m : Machine) : List Event :=
  [declare m.frame name .nil] ++
    (match superclass with
    | none => []
    | some c => [.made m.frame (.superclass name methods),
        .stored ⟨m.size, "super", .cls c, .superclass⟩]) ++
    [declare m.frame name (.cls m.heap.classes.size)]

def instantiateEvents (cls : Nat) (arguments : List Value) (m : Machine) : List Event :=
  match m.heap.method? cls Heap.initName with
  | none => []
  | some method =>
    match m.heap.closures[method]? with
    | none => []
    | some c =>
      binding m.size c (.object m.heap.instances.size) ++
        calling (m.size + 1) { c with frame := m.size } arguments

def callValueEvents (callee : Value) (arguments : List Value) (m : Machine) : List Event :=
  match callee with
  | .closure i =>
    match m.heap.closures[i]? with
    | none => []
    | some c => calling m.size c arguments
  | .cls c => m.instantiateEvents c arguments
  | _ => []

def callEvents (callee : Value) (arguments : List Value) (m : Machine) : List Event :=
  if m.heap.arity? callee = some arguments.length then m.callValueEvents callee arguments else []

def executeEvents (m : Machine) : Stmt → List Event
  | .block body => [.made m.frame (.block body)]
  | .classDecl name none methods => m.declareClassEvents name none methods
  | .function f => [declare m.frame f.name (.closure m.heap.closures.size)]
  | .varDecl name none => [declare m.frame name .nil]
  | _ => []

def receiveEvents (m : Machine) (v : Value) : Waiting → List Event
  | .assign target => m.assignEvents target v
  | .callee _ [] => m.callEvents v []
  | .argument callee _ before [] => m.callEvents callee (v :: before).reverse
  | .get name =>
    match v with
    | .object i => m.propertyEvents i name
    | _ => []
  | .define name => [declare m.frame name v]
  | .superclass name _ methods =>
    match v with
    | .cls c => m.declareClassEvents name (some c) methods
    | _ => []
  | _ => []

/-- What the next step does to frames. -/
def events (m : Machine) : List Event :=
  match m.control, m.stack.items with
  | .eval (.super keyword method), _ => m.superMethodEvents keyword method
  | .exec t, _ => m.executeEvents t
  | .value v, w :: _ => m.receiveEvents v w
  | _, _ => []

@[simp] theorem regions_assignEvents (r : Reference) (v : Value) (m : Machine) :
    regions (m.assignEvents r v) = [] := by
  unfold assignEvents; split <;> split <;> rfl

theorem receiveEvents_stack (m : Machine) (stack : Stack) (v : Value) (w : Waiting) :
    { m with stack }.receiveEvents v w = m.receiveEvents v w := by
  cases w <;> rfl

theorem receiveEvents_callee (m : Machine) (v : Value) (paren : Token) (es : List Expr) :
    m.receiveEvents v (.callee paren es) = if es = [] then m.callEvents v [] else [] := by
  cases es <;> rfl

theorem receiveEvents_argument (m : Machine) (v callee : Value) (paren : Token)
    (before : List Value) (es : List Expr) :
    m.receiveEvents v (.argument callee paren before es) =
      if es = [] then m.callEvents callee (v :: before).reverse else [] := by
  cases es <;> rfl

/-! ## The events are what happens -/

theorem holder?_self {fs : Frames Value} (h : fs.frame? i = some f) (hx : f.bindings.contains x) :
    fs.holder? i x = some i := by
  simp [Frames.holder?, Frames.holderWithin, h, hx]

/-- A frame with bindings is one whose names are bound one after the other. -/
theorem define_make (fs : Frames Value) (outer : Option Nat) (bs : Bindings Value) (x : String)
    (v : Value) :
    (fs.make outer bs).2.define fs.all.size x v = (fs.make outer (bs.insert x v)).2 := by
  simp only [Frames.make, Frames.define, Frames.mk.injEq]
  apply Array.ext_getElem?
  intro i
  simp only [Array.getElem?_modify, Array.getElem?_push]
  grind

theorem replay_binding (fs : Frames Value) (c : Closure) (receiver : Value) :
    replay (binding fs.all.size c receiver) fs =
      (fs.make (some c.frame) [("this", receiver)]).2 :=
  define_make fs (some c.frame) [] "this" receiver

theorem replay_calling (fs : Frames Value) (c : Closure) (arguments : List Value) :
    replay (calling fs.all.size c arguments) fs =
      (fs.make (some c.frame) (bindParameters c.declaration.parameters arguments [])).2 := by
  have hbind (ps : List Token) (vs : List Value) (bs : Bindings Value) :
      replay ((ps.zip vs).map fun (p, v) => declare fs.all.size p v)
        (fs.make (some c.frame) bs).2 =
        (fs.make (some c.frame) (bindParameters ps vs bs)).2 := by
    induction ps generalizing vs bs with
    | nil => rfl
    | cons p ps ih =>
      cases vs with
      | nil => rfl
      | cons v vs =>
        rw [List.zip_cons_cons, List.map_cons, replay_cons]
        exact (congrArg _ (define_make fs _ bs p.lexeme v)).trans (ih vs _)
  exact hbind _ _ []

@[simp] theorem heap_yield (m : Machine) (v : Value) : (m.yield v).heap = m.heap := rfl

@[simp] theorem heap_fail (m : Machine) (f : Failure) : (m.fail f).heap = m.heap := rfl

@[simp] theorem heap_error (m : Machine) (t : Token) (e : RuntimeError) :
    (m.error t e).heap = m.heap := rfl

@[simp] theorem heap_fault (m : Machine) (f : Fault) : (m.fault f).heap = m.heap := rfl

@[simp] theorem heap_proceed (m : Machine) (task : Control) : (m.proceed task).heap = m.heap := rfl

@[simp] theorem heap_enter (s : Setting) (w : Waiting) (frame : Nat) (task : Control)
    (m : Machine) : (m.enter s w frame task).heap = m.heap := by
  unfold enter; split <;> rfl

@[simp] theorem heap_await (s : Setting) (w : Waiting) (task : Control) (m : Machine) :
    (m.await s w task).heap = m.heap := heap_enter ..

@[simp] theorem heap_read (r : Reference) (m : Machine) : (m.read r).heap = m.heap := by
  unfold read; split <;> split <;> rfl

@[simp] theorem heap_add (l : Value) (op : Token) (r : Value) (m : Machine) :
    (m.add l op r).heap = m.heap := by
  unfold add; split <;> rfl

@[simp] theorem heap_binary (l : Value) (op : Token) (r : Value) (m : Machine) :
    (m.binary l op r).heap = m.heap := by
  unfold binary
  split
  · rfl
  · rfl
  · exact heap_add ..
  · split
    · split <;> rfl
    · rfl

@[simp] theorem heap_unary (op : Token) (v : Value) (m : Machine) :
    (m.unary op v).heap = m.heap := by
  unfold unary
  split
  · rfl
  · split <;> rfl
  · rfl

@[simp] theorem heap_finishCall (caller : Nat) (result : CallResult) (v : Value) (m : Machine) :
    (m.finishCall caller result v).heap = m.heap := by
  cases result with
  | returned | created => rfl
  | receiver frame =>
    simp only [finishCall]
    split <;> rfl

@[simp] theorem heap_receiveReturn (m : Machine) (v : Value) (w : Waiting) :
    (m.receiveReturn v w).heap = m.heap := by
  cases w <;> simp [receiveReturn]

@[simp] theorem heap_receiveFailure (m : Machine) (w : Waiting) :
    (m.receiveFailure w).heap = m.heap := by
  cases w <;> rfl

theorem frames_assign (r : Reference) (v : Value) (m : Machine) :
    (m.assign r v).heap.frames = replay (m.assignEvents r v) m.heap.frames := by
  simp only [assign, assignEvents]
  cases r.hops with
  | some d =>
    dsimp only
    cases m.heap.frames.frameAt m.frame d <;> rfl
  | none =>
    dsimp only
    cases m.heap.frames.holder? Heap.globals r.name.lexeme <;> rfl

theorem frames_bindMethod (method : Nat) (receiver : Value) (m : Machine) :
    (m.bindMethod method receiver).heap.frames =
      replay (m.bindMethodEvents method receiver) m.heap.frames := by
  simp only [bindMethod, bindMethodEvents]
  cases m.heap.closures[method]? with
  | none => rfl
  | some c => exact (replay_binding ..).symm

theorem frames_property (object : Nat) (name : Token) (m : Machine) :
    (m.property object name).heap.frames =
      replay (m.propertyEvents object name) m.heap.frames := by
  simp only [property, propertyEvents]
  cases m.heap.instances[object]? with
  | none => rfl
  | some o =>
    dsimp only
    cases o.fields.get? name.lexeme with
    | some v => rfl
    | none =>
      dsimp only
      cases m.heap.method? o.cls name.lexeme with
      | none => rfl
      | some method => exact frames_bindMethod ..

theorem frames_superMethod (keyword : Reference) (method : Token) (m : Machine) :
    (m.superMethod keyword method).heap.frames =
      replay (m.superMethodEvents keyword method) m.heap.frames := by
  simp only [superMethod, superMethodEvents]
  cases keyword.hops with
  | none => rfl
  | some d =>
    dsimp only
    rcases m.heap.frames.getAt m.frame d "super" with f | v
    · rfl
    rcases m.heap.frames.getAt m.frame (d - 1) "this" with f | receiver
    · cases v <;> rfl
    cases v with
    | cls c =>
      dsimp only
      cases m.heap.method? c method.lexeme with
      | none => rfl
      | some i => exact frames_bindMethod ..
    | _ => rfl

theorem classes_addMethods (frame : Nat) (fs : List Function) (methods : Bindings Nat)
    (h : Heap) : (addMethods frame fs methods h).2.classes = h.classes := by
  induction fs generalizing methods h with
  | nil => rfl
  | cons f fs ih => exact ih _ _

theorem frames_addMethods (frame : Nat) (fs : List Function) (methods : Bindings Nat) (h : Heap) :
    (addMethods frame fs methods h).2.frames = h.frames := by
  induction fs generalizing methods h with
  | nil => rfl
  | cons f fs ih => exact ih _ _

/-- A class is declared in the frame at hand, if there is one. -/
theorem declareClass_eq {m : Machine} (hm : m.frame < m.size) (name : Token)
    (superclass : Option Nat) (methods : List Function) :
    m.declareClass name superclass methods =
      let heap := m.heap.define m.frame name.lexeme .nil
      let (frame, heap) := match superclass with
        | none => (m.frame, heap)
        | some c => heap.enclose m.frame [("super", .cls c)]
      let (methods, heap) := addMethods frame methods [] heap
      let (c, heap) := heap.addClass ⟨name.lexeme, superclass, methods⟩
      { m with heap := heap.define m.frame name.lexeme (.cls c), control := .value .nil } := by
  obtain ⟨f, hf⟩ : ∃ f, m.heap.frames.frame? m.frame = some f := ⟨_, Array.getElem?_eq_getElem hm⟩
  have hdefine : (m.heap.define m.frame name.lexeme .nil).frames.frame? m.frame =
      some { f with bindings := f.bindings.insert name.lexeme .nil } := by
    simp [Heap.define, Frames.frame?_define, hf]
  have hcontains : (f.bindings.insert name.lexeme Value.nil).contains name.lexeme := by
    simp [Bindings.contains_insert]
  cases superclass with
  | none =>
    simp only [declareClass, Heap.addClass, frames_addMethods]
    rw [holder?_self hdefine hcontains]
  | some c =>
    have hlt : m.frame < (m.heap.define m.frame name.lexeme .nil).frames.all.size := by
      simpa [Heap.define, Frames.define, size] using hm
    have hmake := Frames.frame?_make_of_lt hlt (some m.frame) [("super", .cls c)]
    simp only [declareClass, Heap.addClass, frames_addMethods, Heap.enclose]
    rw [holder?_self (hmake.trans hdefine) hcontains]

theorem frames_declareClass (name : Token) (superclass : Option Nat) (methods : List Function)
    {m : Machine} (hm : m.frame < m.size) :
    (m.declareClass name superclass methods).heap.frames =
      replay (m.declareClassEvents name superclass methods) m.heap.frames := by
  rw [declareClass_eq hm]
  cases superclass with
  | none =>
    simp only [Heap.addClass, Heap.define, frames_addMethods, classes_addMethods]
    rfl
  | some c =>
    have hsize : (m.heap.frames.define m.frame name.lexeme .nil).all.size = m.size := by
      simp [Frames.define, size]
    have hsuper := define_make (m.heap.frames.define m.frame name.lexeme .nil) (some m.frame) []
      "super" (.cls c)
    rw [hsize] at hsuper
    simp only [Heap.addClass, Heap.define, Heap.enclose, frames_addMethods, classes_addMethods]
    exact congrArg (fun fs => Frames.define fs m.frame name.lexeme (.cls m.heap.classes.size))
      hsuper.symm

theorem frames_invoke (s : Setting) (c : Closure) (arguments : List Value) (result : CallResult)
    (m : Machine) :
    (m.invoke s c arguments result).heap.frames =
      replay (calling m.size c arguments) m.heap.frames := by
  simp only [invoke, heap_enter, size, replay_calling]
  rfl

theorem frames_instantiate (s : Setting) (cls : Nat) (arguments : List Value) (m : Machine) :
    (m.instantiate s cls arguments).heap.frames =
      replay (m.instantiateEvents cls arguments) m.heap.frames := by
  simp only [instantiate, instantiateEvents]
  cases m.heap.method? cls Heap.initName with
  | none => rfl
  | some method =>
    dsimp only
    cases m.heap.closures[method]? with
    | none => rfl
    | some c =>
      dsimp only
      have hsize : m.size + 1 = (m.heap.frames.make (some c.frame)
          [("this", .object m.heap.instances.size)]).2.all.size := by
        simp [Frames.make, size]
      rw [frames_invoke, replay_append, hsize, show m.size = m.heap.frames.all.size from rfl,
        replay_binding]
      rfl

theorem frames_callValue (s : Setting) (callee : Value) (arguments : List Value) (m : Machine) :
    (m.callValue s callee arguments).heap.frames =
      replay (m.callValueEvents callee arguments) m.heap.frames := by
  cases callee with
  | closure i =>
    simp only [callValue, callValueEvents]
    cases m.heap.closures[i]? with
    | none => rfl
    | some c => exact frames_invoke ..
  | cls c => exact frames_instantiate ..
  | _ => rfl

theorem frames_call (s : Setting) (callee : Value) (paren : Token) (arguments : List Value)
    (m : Machine) :
    (m.call s callee paren arguments).heap.frames =
      replay (m.callEvents callee arguments) m.heap.frames := by
  simp only [call, callEvents]
  cases m.heap.arity? callee with
  | none => rfl
  | some n =>
    dsimp only
    by_cases h : arguments.length = n
    · rw [if_pos h, if_pos (by rw [h]), frames_callValue]
      rfl
    · rw [if_neg h, if_neg fun e => h (Option.some.inj e).symm]
      rfl

theorem frames_execute (s : Setting) (t : Stmt) {m : Machine}
    (hm : m.executeEvents t ≠ [] → m.frame < m.size) :
    (m.execute s t).heap.frames = replay (m.executeEvents t) m.heap.frames := by
  cases t with
  | classDecl name superclass methods =>
    cases superclass with
    | none => exact frames_declareClass name none methods (hm nofun)
    | some parent => simp [execute, executeEvents]
  | block body => simp [execute, executeEvents, Heap.enclose, perform]
  | returning keyword value => cases value <;> simp [execute, executeEvents]
  | varDecl name value =>
    cases value with
    | none => rfl
    | some value => simp [execute, executeEvents]
  | function f => rfl
  | _ => simp [execute, executeEvents]

theorem frames_receive (s : Setting) (v : Value) (w : Waiting) {m : Machine}
    (hm : m.receiveEvents v w ≠ [] → m.frame < m.size) :
    (m.receive s v w).heap.frames = replay (m.receiveEvents v w) m.heap.frames := by
  cases w with
  | assign target => exact frames_assign ..
  | callee paren es =>
    cases es with
    | nil => exact frames_call ..
    | cons e es => simp [receive, evaluateArguments, receiveEvents]
  | argument callee paren before es =>
    cases es with
    | nil => exact frames_call ..
    | cons e es => simp [receive, evaluateArguments, receiveEvents]
  | get name =>
    cases v with
    | object i => exact frames_property ..
    | _ => rfl
  | superclass name parent methods =>
    cases v with
    | cls c => exact frames_declareClass name (some c) methods (hm (List.cons_ne_nil _ _))
    | _ => rfl
  | setObject name value => cases v <;> simp [receive, receiveEvents]
  | define | setValue | print | leave => rfl
  | logical operator right =>
    simp only [receive, receiveEvents, replay_nil]
    cases (if operator.kind = .kwOr then v.truthy else !v.truthy) <;> rfl
  | loopTest condition body =>
    simp only [receive, receiveEvents, replay_nil]
    cases v.truthy <;> simp
  | _ => simp [receive, receiveEvents]

/-- The events of a step are what it does to the frames. -/
theorem frames_step (s : Setting) {m : Machine} (hm : m.events ≠ [] → m.frame < m.size) :
    (m.step s).heap.frames = replay m.events m.heap.frames := by
  obtain ⟨control, stack, frame, heap, printed, callToken⟩ := m
  cases control with
  | eval e =>
    cases e with
    | super keyword method => exact frames_superMethod ..
    | missing | literal | grouping => rfl
    | _ => simp [step, evaluate, events]
  | exec t => exact frames_execute s t hm
  | run ss => cases ss <;> simp [step, runAll, events]
  | value v =>
    obtain ⟨_ | ⟨w, items⟩, n, hn⟩ := stack
    · rfl
    · exact frames_receive s v w hm
  | returning v =>
    obtain ⟨_ | ⟨w, items⟩, n, hn⟩ := stack
    · rfl
    · simp [step, Stack.pop?, events]
  | failing f =>
    obtain ⟨_ | ⟨w, items⟩, n, hn⟩ := stack
    · rfl
    · simp [step, Stack.pop?, events]

end Machine

end LoxLang
