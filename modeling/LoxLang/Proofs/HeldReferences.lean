import LoxLang.Proofs.LastingStructure
import LoxLang.Tree.References

/-!
# References that are held

The references that a machine still has before it: in its task, in what waits and in the functions
of its heap (`Holds`). A step makes none, so what is so of all references of the tasks that a
session starts with is so of all that it ever comes to (`Met.holds`).
-/

namespace LoxLang

/-- The references in a task. -/
def Control.references : Control → List (ReferenceKind × Reference)
  | eval e => e.references
  | exec t => t.references
  | run ts => stmtReferences ts
  | _ => []

/-- The references in a construct that are still to be used. -/
def Waiting.references : Waiting → List (ReferenceKind × Reference)
  | assign target => [(.assign, target)]
  | binaryRight _ e | logical _ e | setObject _ e => e.references
  | callee _ es | argument _ _ _ es => exprReferences es
  | branch thenBranch elseBranch => thenBranch.references ++ elseBranch.references
  | loopTest condition body | loopBody condition body => condition.references ++ body.references
  | superclass _ _ methods => functionReferences methods
  | rest ts => stmtReferences ts
  | _ => []

theorem Control.references_of_isDone {c : Control} (h : c.isDone = true) : c.references = [] := by
  cases c <;> first | rfl | cases h

theorem mem_functionReferences {f : Function} (hf : f ∈ fs) (hr : r ∈ f.references) :
    r ∈ functionReferences fs := by
  induction hf with
  | head => exact List.mem_append_left _ hr
  | tail _ _ ih => exact List.mem_append_right _ ih

theorem Function.references_body (f : Function) : f.references = stmtReferences f.body := by
  cases f; rfl

namespace Machine

/-- Something is so of all references in what waits. -/
def Waits (N : ReferenceKind × Reference → Prop) (m : Machine) : Prop :=
  ∀ w ∈ m.stack.items, ∀ r ∈ w.references, N r

/-- Something is so of all references in the task and in what waits. -/
structure Pends (N : ReferenceKind × Reference → Prop) (m : Machine) : Prop where
  control : ∀ r ∈ m.control.references, N r
  waiting : m.Waits N

/-- Something is so of all references in the functions of the heap. -/
def Closes (N : ReferenceKind × Reference → Prop) (m : Machine) : Prop :=
  ∀ (k : Nat) (c : Closure), m.heap.closures[k]? = some c → ∀ r ∈ c.declaration.references, N r

/-- A task is done with, and nothing more waits. -/
structure Ends (m m' : Machine) : Prop where
  stack : m'.stack = m.stack
  control : m'.control.isDone = true

/-! ## Tasks that are done at once -/

section
variable (m : Machine)

theorem ends_read (r : Reference) : m.Ends (m.read r) := by
  unfold read; split <;> split <;> exact ⟨rfl, rfl⟩

theorem ends_assign (r : Reference) (v : Value) : m.Ends (m.assign r v) := by
  unfold assign; split <;> split <;> exact ⟨rfl, rfl⟩

theorem ends_add (left : Value) (operator : Token) (right : Value) :
    m.Ends (m.add left operator right) := by
  unfold add; split <;> exact ⟨rfl, rfl⟩

theorem ends_binary (left : Value) (operator : Token) (right : Value) :
    m.Ends (m.binary left operator right) := by
  unfold binary
  split
  · exact ⟨rfl, rfl⟩
  · exact ⟨rfl, rfl⟩
  · exact ends_add ..
  · split
    · split <;> exact ⟨rfl, rfl⟩
    · exact ⟨rfl, rfl⟩

theorem ends_unary (operator : Token) (v : Value) : m.Ends (m.unary operator v) := by
  unfold unary
  split
  · exact ⟨rfl, rfl⟩
  · split <;> exact ⟨rfl, rfl⟩
  · exact ⟨rfl, rfl⟩

theorem ends_bindMethod (k : Nat) (receiver : Value) : m.Ends (m.bindMethod k receiver) := by
  unfold bindMethod; split <;> exact ⟨rfl, rfl⟩

theorem ends_property (object : Nat) (name : Token) : m.Ends (m.property object name) := by
  unfold property
  split
  · exact ⟨rfl, rfl⟩
  · split
    · exact ⟨rfl, rfl⟩
    · split
      · exact ends_bindMethod ..
      · exact ⟨rfl, rfl⟩

theorem ends_superMethod (keyword : Reference) (method : Token) :
    m.Ends (m.superMethod keyword method) := by
  unfold superMethod
  split
  · exact ⟨rfl, rfl⟩
  · split
    · exact ⟨rfl, rfl⟩
    · exact ⟨rfl, rfl⟩
    · split
      · exact ends_bindMethod ..
      · exact ⟨rfl, rfl⟩
    · exact ⟨rfl, rfl⟩

theorem ends_declareClass (name : Token) (superclass : Option Nat) (methods : List Function) :
    m.Ends (m.declareClass name superclass methods) := by
  unfold declareClass
  dsimp only
  split <;> exact ⟨rfl, rfl⟩

theorem ends_finishCall (caller : Nat) (result : CallResult) (v : Value) :
    m.Ends (m.finishCall caller result v) := by
  cases result with
  | returned | created => exact ⟨rfl, rfl⟩
  | receiver frame =>
    simp only [finishCall]
    split <;> exact ⟨rfl, rfl⟩

end

/-! ## Tasks that go on -/

variable {N : ReferenceKind × Reference → Prop} {m m' : Machine}

theorem Waits.ends (hw : m.Waits N) (he : m.Ends m') : m'.Pends N := by
  refine ⟨?_, ?_⟩
  · rw [Control.references_of_isDone he.control]
    exact List.forall_mem_nil _
  · rw [Waits, he.stack]
    exact hw

theorem Waits.enter (hw : m.Waits N) (s : Setting) (h : ∀ r ∈ w.references ++ task.references, N r)
    (i : Nat) : (m.enter s w i task).Pends N := by
  unfold Machine.enter
  split
  · exact hw.ends ⟨rfl, rfl⟩
  · obtain ⟨hwaiting, htask⟩ := List.forall_mem_append.1 h
    exact ⟨htask, List.forall_mem_cons.2 ⟨hwaiting, hw⟩⟩

theorem Waits.await (hw : m.Waits N) (s : Setting)
    (h : ∀ r ∈ w.references ++ task.references, N r) : (m.await s w task).Pends N :=
  hw.enter s h m.frame

theorem Waits.invoke (hw : m.Waits N) (s : Setting) (hc : ∀ r ∈ c.declaration.references, N r)
    (arguments : List Value) (result : CallResult) : (m.invoke s c arguments result).Pends N := by
  rw [Function.references_body] at hc
  simp only [Machine.invoke]
  refine Waits.enter ?_ s ?_ _
  · exact hw
  · exact hc

theorem Waits.instantiate (hw : m.Waits N) (s : Setting) (hc : m.Closes N) (cls : Nat)
    (arguments : List Value) : (m.instantiate s cls arguments).Pends N := by
  unfold Machine.instantiate
  split
  · exact hw.ends ⟨rfl, rfl⟩
  · split
    · exact hw.ends ⟨rfl, rfl⟩
    · next c hk =>
      refine Waits.invoke ?_ s ?_ arguments _
      · exact hw
      · exact hc _ c hk

theorem Waits.callValue (hw : m.Waits N) (s : Setting) (hc : m.Closes N) (callee : Value)
    (arguments : List Value) : (m.callValue s callee arguments).Pends N := by
  unfold Machine.callValue
  split
  · exact hw.ends ⟨rfl, rfl⟩
  · split
    · exact hw.ends ⟨rfl, rfl⟩
    · next c hk => exact hw.invoke s (hc _ c hk) ..
  · exact hw.instantiate s hc ..
  · exact hw.ends ⟨rfl, rfl⟩

theorem Waits.call (hw : m.Waits N) (s : Setting) (hc : m.Closes N) (callee : Value)
    (paren : Token) (arguments : List Value) : (m.call s callee paren arguments).Pends N := by
  unfold Machine.call
  split
  · exact hw.ends ⟨rfl, rfl⟩
  · split
    · exact Waits.callValue (m := { m with callToken := some paren }) hw s hc ..
    · exact hw.ends ⟨rfl, rfl⟩

theorem Waits.evaluateArguments (hw : m.Waits N) (s : Setting) (hc : m.Closes N) (callee : Value)
    (paren : Token) (before : List Value) (hes : ∀ r ∈ exprReferences es, N r) :
    (m.evaluateArguments s callee paren before es).Pends N := by
  cases es with
  | nil => exact hw.call s hc ..
  | cons e es =>
    obtain ⟨he, hes⟩ := List.forall_mem_append.1 hes
    exact hw.await s (List.forall_mem_append.2 ⟨hes, he⟩)

theorem Waits.evaluate (hw : m.Waits N) (s : Setting) (he : ∀ r ∈ e.references, N r) :
    (m.evaluate s e).Pends N := by
  cases e with
  | missing | literal => exact hw.ends ⟨rfl, rfl⟩
  | grouping inner => exact ⟨he, hw⟩
  | super keyword method => exact hw.ends (ends_superMethod ..)
  | this keyword => exact hw.ends (ends_read ..)
  | «variable» target => exact hw.ends (ends_read ..)
  | get | unary => exact hw.await s he
  | assign target value => exact hw.await s he
  | binary | logical | call | set =>
    obtain ⟨hl, hr⟩ := List.forall_mem_append.1 he
    exact hw.await s (List.forall_mem_append.2 ⟨hr, hl⟩)

theorem Waits.execute (hw : m.Waits N) (s : Setting) (ht : ∀ r ∈ t.references, N r) :
    (m.execute s t).Pends N := by
  cases t with
  | missing | function => exact hw.ends ⟨rfl, rfl⟩
  | block body =>
    refine Waits.enter ?_ s ?_ _
    · exact hw
    · exact ht
  | classDecl name superclass methods =>
    cases superclass with
    | none =>
      simp only [Machine.execute]
      exact hw.ends (ends_declareClass ..)
    | some parent =>
      obtain ⟨hparent, hmethods⟩ := List.forall_mem_append.1 ht
      exact hw.await s (List.forall_mem_append.2 ⟨hmethods, hparent⟩)
  | expression value => exact ⟨ht, hw⟩
  | ifElse condition thenBranch elseBranch =>
    rw [Stmt.references, List.append_assoc] at ht
    obtain ⟨hcondition, hbranches⟩ := List.forall_mem_append.1 ht
    exact hw.await s (List.forall_mem_append.2 ⟨hbranches, hcondition⟩)
  | print value => exact hw.await s ht
  | returning keyword value =>
    cases value with
    | none => exact hw.ends ⟨rfl, rfl⟩
    | some value => exact hw.await s ht
  | varDecl name value =>
    cases value with
    | none => exact hw.ends ⟨rfl, rfl⟩
    | some value => exact hw.await s ht
  | whileLoop condition body =>
    obtain ⟨hcondition, -⟩ := List.forall_mem_append.1 ht
    exact hw.await s (List.forall_mem_append.2 ⟨ht, hcondition⟩)

theorem Waits.receive (hw : m.Waits N) (s : Setting) (hc : m.Closes N) (v : Value) (w : Waiting)
    (h : ∀ r ∈ w.references, N r) : (m.receive s v w).Pends N := by
  cases w with
  | assign target => exact hw.ends (ends_assign ..)
  | binaryRight operator right => exact hw.await s h
  | binary left operator => exact hw.ends (ends_binary ..)
  | callee paren es => exact hw.evaluateArguments s hc _ _ _ h
  | argument callee paren before es => exact hw.evaluateArguments s hc _ _ _ h
  | get name =>
    cases v with
    | object i => exact hw.ends (ends_property ..)
    | _ => exact hw.ends ⟨rfl, rfl⟩
  | logical operator right =>
    simp only [Machine.receive]
    cases (if operator.kind = .kwOr then v.truthy else !v.truthy)
    · exact ⟨h, hw⟩
    · exact hw.ends ⟨rfl, rfl⟩
  | setObject name value =>
    cases v with
    | object i => exact hw.await s h
    | _ => exact hw.ends ⟨rfl, rfl⟩
  | setValue | print | define | leave => exact hw.ends ⟨rfl, rfl⟩
  | unary operator => exact hw.ends (ends_unary ..)
  | returnValue => exact hw.ends ⟨rfl, rfl⟩
  | branch thenBranch elseBranch =>
    obtain ⟨hthen, helse⟩ := List.forall_mem_append.1 h
    simp only [Machine.receive]
    split
    · exact ⟨hthen, hw⟩
    · exact ⟨helse, hw⟩
  | loopTest condition body =>
    obtain ⟨-, hbody⟩ := List.forall_mem_append.1 h
    simp only [Machine.receive]
    split
    · exact hw.await s (List.forall_mem_append.2 ⟨h, hbody⟩)
    · exact hw.ends ⟨rfl, rfl⟩
  | loopBody condition body =>
    obtain ⟨hcondition, -⟩ := List.forall_mem_append.1 h
    exact hw.await s (List.forall_mem_append.2 ⟨h, hcondition⟩)
  | superclass name parent methods =>
    cases v with
    | cls c =>
      simp only [Machine.receive]
      exact hw.ends (ends_declareClass ..)
    | _ => exact hw.ends ⟨rfl, rfl⟩
  | rest ts => exact ⟨h, hw⟩
  | activation caller result => exact hw.ends (ends_finishCall ..)

/-- A step makes no references for later. -/
theorem Pends.step (h : m.Pends N) (hc : m.Closes N) (s : Setting) : (m.step s).Pends N := by
  have hw := h.waiting
  have htask := h.control
  have hpopped {w : Waiting} {rest : Stack} (hpop : m.stack.pop? = some (w, rest)) :
      (∀ r ∈ w.references, N r) ∧ { m with stack := rest }.Waits N := by
    rw [Waits, Stack.items_of_pop? hpop] at hw
    exact List.forall_mem_cons.1 hw
  unfold Machine.step
  split
  · next he => exact hw.evaluate s (by rw [he] at htask; exact htask)
  · next ht => exact hw.execute s (by rw [ht] at htask; exact htask)
  · next ts hts =>
    rw [hts] at htask
    cases ts with
    | nil => exact hw.ends ⟨rfl, rfl⟩
    | cons t ts =>
      obtain ⟨ht, hrest⟩ := List.forall_mem_append.1 htask
      exact hw.await s (List.forall_mem_append.2 ⟨hrest, ht⟩)
  · split
    · next hpop => exact (hpopped hpop).2.receive s hc _ _ (hpopped hpop).1
    · exact h
  · next hv =>
    split
    · next w rest hpop =>
      obtain ⟨-, hrest⟩ := hpopped hpop
      cases w with
      | activation caller result => exact hrest.ends (ends_finishCall ..)
      | _ => exact hrest.ends ⟨rfl, congrArg Control.isDone hv⟩
    · exact hw.ends ⟨rfl, rfl⟩
  · next hf =>
    split
    · next w rest hpop =>
      obtain ⟨-, hrest⟩ := hpopped hpop
      cases w <;> exact hrest.ends ⟨rfl, congrArg Control.isDone hf⟩
    · exact h

/-! ## Sessions -/

/-- Something is so of all references that a machine has before it. -/
structure Holds (N : ReferenceKind × Reference → Prop) (m : Machine) : Prop where
  pends : m.Pends N
  closes : m.Closes N

theorem Holds.mono {N' : ReferenceKind × Reference → Prop} (h : m.Holds N)
    (hN : ∀ r, N r → N' r) : m.Holds N' where
  pends := ⟨fun r hr => hN r (h.pends.control r hr),
    fun w hw r hr => hN r (h.pends.waiting w hw r hr)⟩
  closes k c hc r hr := hN r (h.closes k c hc r hr)

theorem Pends.supplies (h : m.Pends N) (hc : m.Closes N) (hf : m.Supplies f) :
    ∀ r ∈ f.references, N r := by
  intro r hr
  cases hf with
  | statement ht => exact h.control r (by rw [ht]; exact hr)
  | @method name superclass methods hd hf =>
    have hmem := mem_functionReferences hf hr
    cases hd with
    | base ht => exact h.control r (by rw [ht]; exact List.mem_append_right _ hmem)
    | derived _ hs =>
      have hw := h.waiting
      rw [Waits, hs] at hw
      exact (List.forall_mem_cons.1 hw).1 r hmem
  | bound hk hf => exact hc _ _ hk r (hf ▸ hr)

theorem Holds.step (h : m.Holds N) (s : Setting) : (m.step s).Holds N where
  pends := h.pends.step h.closes s
  closes k c hc := by
    rcases (turn_step s m).closure hc with hold | ⟨hnew, -⟩
    · exact h.closes k c hold
    · exact h.pends.supplies h.closes hnew

theorem Later.holds (h : Later P a b) (hP : ∀ task, P task → ∀ r ∈ task.references, N r)
    (ha : a.Holds N) : b.Holds N := by
  induction h with
  | refl => exact ha
  | step s _ ih => exact ih.step s
  | next _ ht ih => exact ⟨⟨hP _ ht, List.forall_mem_nil _⟩, ih.closes⟩

theorem Met.holds (h : Met P a) (hP : ∀ task, P task → ∀ r ∈ task.references, N r) :
    a.Holds N := by
  obtain ⟨task, ht, h⟩ := h
  exact h.holds hP ⟨⟨hP _ ht, List.forall_mem_nil _⟩, nofun⟩

end Machine

end LoxLang
