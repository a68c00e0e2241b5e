import LoxLang.Proofs.Appearances
import LoxLang.Proofs.Piecewise.Matching

/-!
# Machines whose trees match

Two such machines hold the same values in the same frames (`Abreast`); what differs is the tokens of
the trees, and with them where an error is reported. One of the two machines has more to run behind
its program, and it may have printed something before (`Onward`).
-/

namespace LoxLang

/-! ## Heaps -/

structure Closure.Matches (P : Pairing) (c c' : Closure) : Prop where
  declaration : FunctionMatches P c.declaration c'.declaration
  frame : c'.frame = c.frame
  isInitializer : c'.isInitializer = c.isInitializer

theorem Closure.Matches.inFrame (hc : Closure.Matches P c c') (frame : Nat) :
    Closure.Matches P { c with frame } { c' with frame } := ⟨hc.declaration, rfl, hc.isInitializer⟩

theorem Closure.Matches.signature (hc : Closure.Matches P c c') : c'.signature = c.signature := by
  rw [Closure.signature, Closure.signature, P.lexeme hc.declaration.name,
    hc.declaration.parameters.length_eq]

structure Heap.Matches (P : Pairing) (h h' : Heap) : Prop where
  frames : h'.frames = h.frames
  classes : h'.classes = h.classes
  instances : h'.instances = h.instances
  ticks : h'.ticks = h.ticks
  size : h'.closures.size = h.closures.size
  closure (i : Nat) : Option.Rel (Closure.Matches P) h.closures[i]? h'.closures[i]?

variable {P : Pairing}

namespace Heap.Matches

variable {h h' : Heap}

theorem enclose (hh : h.Matches P h') (outer : Nat) (bs : Bindings Value) :
    (h'.enclose outer bs).1 = (h.enclose outer bs).1 ∧
      (h.enclose outer bs).2.Matches P (h'.enclose outer bs).2 := by
  refine ⟨congrArg (·.all.size) hh.frames, ?_, hh.classes, hh.instances, hh.ticks, hh.size,
    hh.closure⟩
  simp only [Heap.enclose, hh.frames]

theorem define (hh : h.Matches P h') (i : Nat) (x : String) (v : Value) :
    (h.define i x v).Matches P (h'.define i x v) := by
  refine ⟨?_, hh.classes, hh.instances, hh.ticks, hh.size, hh.closure⟩
  simp only [Heap.define, hh.frames]

theorem addClosure (hh : h.Matches P h') (hc : c.Matches P c') :
    (h'.addClosure c').1 = (h.addClosure c).1 ∧
      (h.addClosure c).2.Matches P (h'.addClosure c').2 := by
  refine ⟨hh.size, hh.frames, hh.classes, hh.instances, hh.ticks, ?_, fun i => ?_⟩
  · simp only [Heap.addClosure, Array.size_push, hh.size]
  · simp only [Heap.addClosure, Array.getElem?_push, hh.size]
    split
    · exact .some hc
    · exact hh.closure i

theorem addClass (hh : h.Matches P h') (c : Class) :
    (h'.addClass c).1 = (h.addClass c).1 ∧ (h.addClass c).2.Matches P (h'.addClass c).2 := by
  refine ⟨congrArg Array.size hh.classes, hh.frames, ?_, hh.instances, hh.ticks, hh.size,
    hh.closure⟩
  simp only [Heap.addClass, hh.classes]

theorem addInstance (hh : h.Matches P h') (cls : Nat) :
    (h'.addInstance cls).1 = (h.addInstance cls).1 ∧
      (h.addInstance cls).2.Matches P (h'.addInstance cls).2 := by
  refine ⟨congrArg Array.size hh.instances, hh.frames, hh.classes, ?_, hh.ticks, hh.size,
    hh.closure⟩
  simp only [Heap.addInstance, hh.instances]

theorem tick (hh : h.Matches P h') : h.tick.Matches P h'.tick :=
  ⟨hh.frames, hh.classes, hh.instances, congrArg (· + 1) hh.ticks, hh.size, hh.closure⟩

theorem setField (hh : h.Matches P h') (object : Nat) (x : String) (v : Value) :
    (h.setField object x v).Matches P (h'.setField object x v) := by
  refine ⟨hh.frames, hh.classes, ?_, hh.ticks, hh.size, hh.closure⟩
  simp only [Heap.setField, hh.instances]

/-- Nobody can tell the two heaps apart without calling their functions. -/
theorem looks (hh : h.Matches P h') : h.LooksAlike h' where
  closures := by
    refine Array.ext_getElem? fun i => ?_
    rw [Array.getElem?_map, Array.getElem?_map]
    have hc := hh.closure i
    generalize h.closures[i]? = o at hc ⊢
    generalize h'.closures[i]? = o' at hc ⊢
    cases hc with
    | none => rfl
    | some hc => exact congrArg some hc.signature
  classes := hh.classes
  instances := hh.instances

theorem encloseReceiver (hh : h.Matches P h') (hc : c.Matches P c') (receiver : Value) :
    (h'.encloseReceiver c' receiver).1 = (h.encloseReceiver c receiver).1 ∧
      (h.encloseReceiver c receiver).2.Matches P (h'.encloseReceiver c' receiver).2 := by
  rw [Heap.encloseReceiver, Heap.encloseReceiver, hc.frame]
  exact hh.enclose ..

end Heap.Matches

/-! ## Machines -/

inductive Failure.Matches (P : Pairing) : Failure → Failure → Prop where
  | error : P.rel t t' → Matches P (.error t e) (.error t' e)
  /-- The call that is blamed for an overflow is the last one, which may be another's. -/
  | overflow : Matches P (.overflow call) (.overflow call')
  | fault : Matches P (.fault f) (.fault f)

inductive Control.Matches (P : Pairing) : Control → Control → Prop where
  | eval : ExprMatches P e e' → Matches P (.eval e) (.eval e')
  | exec : StmtMatches P s s' → Matches P (.exec s) (.exec s')
  | run : LoxLang.Matches P (.stmts ss) (.stmts ss') → Matches P (.run ss) (.run ss')
  | value : Matches P (.value v) (.value v)
  | returning : Matches P (.returning v) (.returning v)
  | failing : f.Matches P f' → Matches P (.failing f) (.failing f')

inductive Waiting.Matches (P : Pairing) : Waiting → Waiting → Prop where
  | assign : r.Matches P r' → Matches P (.assign r) (.assign r')
  | binaryRight : P.rel op op' → ExprMatches P e e' →
      Matches P (.binaryRight op e) (.binaryRight op' e')
  | binary : P.rel op op' → Matches P (.binary v op) (.binary v op')
  | callee : P.rel paren paren' → LoxLang.Matches P (.exprs es) (.exprs es') →
      Matches P (.callee paren es) (.callee paren' es')
  | argument : P.rel paren paren' → LoxLang.Matches P (.exprs es) (.exprs es') →
      Matches P (.argument v paren before es) (.argument v paren' before es')
  | get : P.rel name name' → Matches P (.get name) (.get name')
  | logical : P.rel op op' → ExprMatches P e e' →
      Matches P (.logical op e) (.logical op' e')
  | setObject : P.rel name name' → ExprMatches P e e' →
      Matches P (.setObject name e) (.setObject name' e')
  | setValue : P.rel name name' → Matches P (.setValue object name) (.setValue object name')
  | unary : P.rel op op' → Matches P (.unary op) (.unary op')
  | print : Matches P .print .print
  | returnValue : Matches P .returnValue .returnValue
  | define : P.rel name name' → Matches P (.define name) (.define name')
  | branch : StmtMatches P t t' → StmtMatches P e e' →
      Matches P (.branch t e) (.branch t' e')
  | loopTest : ExprMatches P c c' → StmtMatches P b b' →
      Matches P (.loopTest c b) (.loopTest c' b')
  | loopBody : ExprMatches P c c' → StmtMatches P b b' →
      Matches P (.loopBody c b) (.loopBody c' b')
  | superclass : P.rel name name' → P.rel parent parent' →
      List.Forall₂ (FunctionMatches P) fs fs' →
      Matches P (.superclass name parent fs) (.superclass name' parent' fs')
  | rest : LoxLang.Matches P (.stmts ss) (.stmts ss') → Matches P (.rest ss) (.rest ss')
  | leave : Matches P (.leave outer) (.leave outer)
  | activation : Matches P (.activation caller result) (.activation caller result)

/-- What waits, while a statement of the program is executed. At the bottom are the statements that
come after it, and only there more statements come behind those. -/
inductive StackMatches (P : Pairing) (more : List Stmt) : List Waiting → List Waiting → Prop where
  | bottom : Matches P (.stmts ss) (.stmts ss') →
      StackMatches P more [.rest ss] [.rest (ss' ++ more)]
  | push : w.Matches P w' → StackMatches P more items items' →
      StackMatches P more (w :: items) (w' :: items')

theorem StackMatches.length_eq (h : StackMatches P more items items') :
    items'.length = items.length := by
  induction h with
  | bottom => rfl
  | push _ _ ih => rw [List.length_cons, List.length_cons, ih]

/-- All of two machines but the tasks in hand, while a statement of the program is executed. -/
structure Abreast (P : Pairing) (more : List Stmt) (out : Array String) (m m' : Machine) :
    Prop where
  heap : m.heap.Matches P m'.heap
  stack : StackMatches P more m.stack.items m'.stack.items
  frame : m'.frame = m.frame
  printed : m'.printed = out ++ m.printed

/-- Two machines inside a statement of the program. -/
structure Inside (P : Pairing) (more : List Stmt) (out : Array String) (m m' : Machine) :
    Prop extends Abreast P more out m m' where
  control : m.control.Matches P m'.control

/-- All of two machines but the tasks in hand, when nothing waits. -/
structure Outside (P : Pairing) (out : Array String) (m m' : Machine) : Prop where
  heap : m.heap.Matches P m'.heap
  empty : m.stack.items = []
  empty' : m'.stack.items = []
  frame : m'.frame = m.frame
  printed : m'.printed = out ++ m.printed

/-- Two machines on their way through a program: in one of its statements, between two of them, or
thrown out of one. -/
inductive Onward (P : Pairing) (more : List Stmt) (out : Array String) :
    Machine → Machine → Prop where
  | inside : Inside P more out m m' → Onward P more out m m'
  | between : Outside P out m m' → Matches P (.stmts ss) (.stmts ss') → m.control = .run ss →
      m'.control = .run (ss' ++ more) → Onward P more out m m'
  | returning : Outside P out m m' → m.control = .returning v → m'.control = .returning v →
      Onward P more out m m'
  | failing : Outside P out m m' → f.Matches P f' → m.control = .failing f →
      m'.control = .failing f' → Onward P more out m m'

/-- Whether all statements of a program have been run. -/
def Machine.Through (m : Machine) : Prop := m.stack.items = [] ∧ m.control = .run []

end LoxLang
