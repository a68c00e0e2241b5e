import LoxLang.Proofs.Calls
import LoxLang.Proofs.HeldValues
import LoxLang.Proofs.LastingStructure

/-!
# Values that are held

The values that a machine holds: in its task, in what waits and in its heap (`HoldsAll`). Among them
functions, classes and instances are known by number, and a step makes at most one of each kind
(`Makes`). So what is true of all values that are held stays true of them, if it is true of the one
that is made (`HoldsAll.step`). In particular nothing is held that has not been made
(`Met.holdsMadeOnly`).
-/

namespace LoxLang

/-- A value that is not kept on the heap. -/
def Value.isPlain : Value → Bool
  | .closure _ | .cls _ | .object _ => false
  | _ => true

/-- The values in a task. -/
def Control.values : Control → List Value
  | value v | returning v => [v]
  | _ => []

/-- The values in a construct that waits. An instance that a construct keeps by number counts. -/
def Waiting.held : Waiting → List Value
  | binary left _ => [left]
  | argument v _ before _ => v :: before
  | setValue object _ | activation _ (.created object) => [.object object]
  | _ => []

theorem Heap.HoldsOnly.addMethods {h : Heap} {P : Value → Prop} {Q : Nat → Prop}
    (hh : h.HoldsOnly P Q) (frame : Nat) (fs : List Function) (methods : Bindings Nat) :
    (Machine.addMethods frame fs methods h).2.HoldsOnly P Q := by
  induction fs generalizing methods h with
  | nil => exact hh
  | cons f fs ih => exact ih (hh.addClosure _) _

/-- The initializer of a class, if it has one, is there. -/
def Heap.Initializes (h : Heap) (cls : Nat) : Prop :=
  ∀ k, h.method? cls initName = some k → ∃ c, h.closures[k]? = some c

namespace Machine

/-- The next step makes a function: by a function statement, or by binding a method. -/
inductive MakesFunction (m : Machine) : Prop where
  | statement : m.control = .exec (.function f) → MakesFunction m
  | bound {k : Nat} {v : Value} {c : Closure} :
    m.Selects k v → m.heap.closures[k]? = some c → MakesFunction m

/-- What the making of a function leaves: one more closure, and the classes as they were. -/
theorem MakesFunction.heap_step {m : Machine} (h : m.MakesFunction) (s : Setting) :
    (m.step s).heap.classes = m.heap.classes ∧
      m.heap.closures.size < (m.step s).heap.closures.size := by
  cases h with
  | statement hc =>
    simp only [step, hc, execute]
    exact ⟨rfl, Nat.lt_of_lt_of_eq (Nat.lt_succ_self _) (Array.size_push _).symm⟩
  | bound hs hc =>
    rw [hs.heap_step hc s]
    exact ⟨rfl, Nat.lt_of_lt_of_eq (Nat.lt_succ_self _) (Array.size_push _).symm⟩

/-- The next step makes a value: a function, a class, or an instance of a class that is called. -/
inductive Makes (m : Machine) : Value → Prop where
  | function : m.MakesFunction → m.Makes (.closure m.heap.closures.size)
  | declaration : m.Declares name superclass methods → m.Makes (.cls m.heap.classes.size)
  | creation : m.Calls (.cls c) as → m.heap.arity? (.cls c) = some as.length →
    m.heap.Initializes c → m.Makes (.object m.heap.instances.size)

/-- All values that a machine holds are `P`. -/
structure HoldsAll (P : Value → Prop) (m : Machine) : Prop where
  control : ∀ v ∈ m.control.values, P v
  waiting : ∀ w ∈ m.stack.items, ∀ v ∈ w.held, P v
  heap : m.heap.HoldsOnly P fun _ => True

namespace HoldsAll

variable {P P' : Value → Prop} {m : Machine}

theorem mono (h : m.HoldsAll P) (hP : ∀ v, P v → P' v) : m.HoldsAll P' where
  control v hv := hP v (h.control v hv)
  waiting w hw v hv := hP v (h.waiting w hw v hv)
  heap := h.heap.mono hP fun _ => id

theorem calls (h : m.HoldsAll P) (hc : m.Calls v as) : P v := by
  cases hc with
  | plain hcontrol => exact h.control v (hcontrol ▸ List.mem_singleton_self _)
  | withArguments _ hs => exact h.waiting _ (hs ▸ List.mem_cons_self) v List.mem_cons_self

theorem setHeap (h : m.HoldsAll P) {h' : Heap} (hh : h'.HoldsOnly P fun _ => True) :
    { m with heap := h' }.HoldsAll P :=
  ⟨h.control, h.waiting, hh⟩

/-! ## Operations -/

theorem isPlain_of_arithmetic? (hv : arithmetic? kind x y = some v) : v.isPlain := by
  unfold arithmetic? at hv
  split at hv <;> cases hv <;> rfl

theorem yield (h : m.HoldsAll P) (hv : P v) : (m.yield v).HoldsAll P :=
  ⟨List.forall_mem_singleton.2 hv, h.waiting, h.heap⟩

theorem fail (h : m.HoldsAll P) (f : Failure) : (m.fail f).HoldsAll P :=
  ⟨List.forall_mem_nil _, h.waiting, h.heap⟩

theorem proceed (h : m.HoldsAll P) (ht : task.values = []) : (m.proceed task).HoldsAll P :=
  ⟨by rw [Machine.proceed, ht]; exact List.forall_mem_nil _, h.waiting, h.heap⟩

theorem enter (h : m.HoldsAll P) (s : Setting) (hw : ∀ v ∈ w.held, P v) (ht : task.values = [])
    (i : Nat) : (m.enter s w i task).HoldsAll P := by
  unfold Machine.enter
  split
  · exact h.fail _
  · refine ⟨?_, List.forall_mem_cons.2 ⟨hw, h.waiting⟩, h.heap⟩
    rw [ht]
    exact List.forall_mem_nil _

theorem await (h : m.HoldsAll P) (s : Setting) (hw : ∀ v ∈ w.held, P v) (ht : task.values = []) :
    (m.await s w task).HoldsAll P :=
  h.enter s hw ht m.frame

theorem getAt (h : m.HoldsAll P) (hv : m.heap.frames.getAt i d x = .ok v) : P v := by
  obtain ⟨j, -, hlookup⟩ := Frames.lookup?_of_getAt hv
  exact h.heap.values hlookup

theorem read (h : m.HoldsAll P) (r : Reference) : (m.read r).HoldsAll P := by
  unfold Machine.read
  split
  · split
    · next hv => exact h.yield (h.getAt hv)
    · exact h.fail _
  · split
    · next hv =>
      obtain ⟨j, -, hlookup⟩ := Option.bind_eq_some_iff.1 hv
      exact h.yield (h.heap.values hlookup)
    · exact h.fail _

theorem assign (h : m.HoldsAll P) (hv : P v) (r : Reference) : (m.assign r v).HoldsAll P := by
  have hstore (j : Nat) : (m.store j r.name v).HoldsAll P :=
    ⟨List.forall_mem_singleton.2 hv, h.waiting, h.heap.define hv ..⟩
  unfold Machine.assign
  split <;> split
  · exact hstore _
  · exact h.fail _
  · exact hstore _
  · exact h.fail _

theorem bindMethod (h : m.HoldsAll P) (hr : P receiver)
    (hnew : ∀ c, m.heap.closures[k]? = some c → P (.closure m.heap.closures.size)) :
    (m.bindMethod k receiver).HoldsAll P := by
  unfold Machine.bindMethod
  split
  · exact h.fail _
  · next c hc =>
    exact ⟨List.forall_mem_singleton.2 (hnew c hc), h.waiting,
      (h.heap.encloseOne hr c.frame "this").addClosure _⟩

theorem property (h : m.HoldsAll P) (hobject : P (.object object))
    (hnew : ∀ o k c, m.heap.instances[object]? = some o → o.fields.get? name.lexeme = none →
      m.heap.method? o.cls name.lexeme = some k → m.heap.closures[k]? = some c →
      P (.closure m.heap.closures.size)) : (m.property object name).HoldsAll P := by
  unfold Machine.property
  split
  · exact h.fail _
  · next o ho =>
    split
    · next hv => exact h.yield (h.heap.fields ho hv)
    · next hfield =>
      split
      · next k hk => exact h.bindMethod hobject fun c => hnew o k c ho hfield hk
      · exact h.fail _

theorem superMethod (h : m.HoldsAll P) (hc : m.control = .eval (.super keyword method))
    (hnew : m.MakesFunction → P (.closure m.heap.closures.size)) :
    (m.superMethod keyword method).HoldsAll P := by
  unfold Machine.superMethod
  split
  · exact h.fail _
  · next d hd =>
    split
    · exact h.fail _
    · exact h.fail _
    · next hsuper hthis =>
      split
      · next k hk =>
        refine h.bindMethod (h.getAt hthis) fun c hclosure => hnew ?_
        exact .bound (.super hc hd hsuper hthis hk) hclosure
      · exact h.fail _
    · exact h.fail _

theorem invoke (h : m.HoldsAll P) (s : Setting) (c : Closure) (hargs : ∀ v ∈ arguments, P v)
    (hresult : ∀ object, result = .created object → P (.object object)) :
    (m.invoke s c arguments result).HoldsAll P := by
  have hbound : ∀ x v, (bindParameters c.declaration.parameters arguments []).get? x = some v →
      P v := by
    intro x v hv
    rcases mem_of_bindParameters hv with hv | hv
    · exact hargs v hv
    · cases hv
  have hheap := h.heap.enclose c.frame hbound
  simp only [Machine.invoke]
  refine (h.setHeap hheap).enter s ?_ rfl _
  cases result with
  | created object => exact List.forall_mem_singleton.2 (hresult object rfl)
  | returned | receiver => exact List.forall_mem_nil _

theorem instantiate (h : m.HoldsAll P) (s : Setting) (cls : Nat) (hargs : ∀ v ∈ arguments, P v)
    (hnew : m.heap.Initializes cls → P (.object m.heap.instances.size)) :
    (m.instantiate s cls arguments).HoldsAll P := by
  unfold Machine.instantiate
  split
  · next hk =>
    have hobject := hnew fun k hk' => by rw [hk] at hk'; cases hk'
    exact ⟨List.forall_mem_singleton.2 hobject, h.waiting, h.heap.addInstance cls⟩
  · next k hk =>
    split
    · exact h.fail _
    · next c hc =>
      have hobject := hnew fun k' hk' => ⟨c, by rw [hk] at hk'; cases hk'; exact hc⟩
      have hheap := (h.heap.addInstance cls).encloseOne hobject c.frame "this"
      refine (h.setHeap hheap).invoke s _ hargs fun object he => ?_
      cases he
      exact hobject

theorem finishCall (h : m.HoldsAll P) (hv : P v) (caller : Nat)
    (hresult : ∀ u ∈ (Waiting.activation caller result).held, P u) :
    (m.finishCall caller result v).HoldsAll P := by
  cases result with
  | returned => exact ⟨List.forall_mem_singleton.2 hv, h.waiting, h.heap⟩
  | created object => exact ⟨hresult, h.waiting, h.heap⟩
  | receiver frame =>
    simp only [Machine.finishCall]
    split
    · next hthis => exact ⟨List.forall_mem_singleton.2 (h.getAt hthis), h.waiting, h.heap⟩
    · exact ⟨List.forall_mem_nil _, h.waiting, h.heap⟩

section

variable (hplain : ∀ v : Value, v.isPlain → P v)
include hplain

theorem define (h : m.HoldsAll P) (hv : P v) (name : Token) : (m.define name v).HoldsAll P :=
  ⟨List.forall_mem_singleton.2 (hplain .nil rfl), h.waiting, h.heap.define hv ..⟩

theorem add (h : m.HoldsAll P) (l : Value) (t : Token) (r : Value) : (m.add l t r).HoldsAll P := by
  unfold Machine.add
  split
  · exact h.yield (hplain _ rfl)
  · exact h.yield (hplain _ rfl)
  · exact h.yield (hplain _ rfl)
  · exact h.fail _

theorem binary (h : m.HoldsAll P) (l : Value) (t : Token) (r : Value) :
    (m.binary l t r).HoldsAll P := by
  unfold Machine.binary
  split
  · exact h.yield (hplain _ rfl)
  · exact h.yield (hplain _ rfl)
  · exact h.add hplain ..
  · split
    · split
      · next hv => exact h.yield (hplain _ (isPlain_of_arithmetic? hv))
      · exact h.fail _
    · exact h.fail _

theorem unary (h : m.HoldsAll P) (t : Token) (v : Value) : (m.unary t v).HoldsAll P := by
  unfold Machine.unary
  split
  · exact h.yield (hplain _ rfl)
  · split
    · exact h.yield (hplain _ rfl)
    · exact h.fail _
  · exact h.fail _

theorem declareClass (h : m.HoldsAll P) (hnew : P (.cls m.heap.classes.size)) (name : Token)
    (superclass : Option Nat) (hsuper : ∀ p, superclass = some p → P (.cls p))
    (methods : List Function) : (m.declareClass name superclass methods).HoldsAll P := by
  have hclass {heap : Heap} (hh : heap.HoldsOnly P fun _ => True)
      (hc : heap.classes = m.heap.classes) (frame : Nat) (c : Class) :
      let added := (addMethods frame methods [] heap).2.addClass c
      added.2.HoldsOnly P (fun _ => True) ∧ P (.cls added.1) := by
    refine ⟨(hh.addMethods frame methods []).addClass fun _ _ _ => trivial, ?_⟩
    rw [Heap.addClass, (closures_addMethods frame methods [] heap).1.classes, hc]
    exact hnew
  have hnil := h.heap.define (hplain .nil rfl) m.frame name.lexeme
  cases superclass with
  | none =>
    have hadded := hclass hnil rfl
    simp only [Machine.declareClass]
    split
    · exact ⟨List.forall_mem_singleton.2 (hplain .nil rfl), h.waiting,
        (hadded _ _).1.define (hadded _ _).2 ..⟩
    · exact ⟨List.forall_mem_nil _, h.waiting, (hadded _ _).1⟩
  | some p =>
    have hadded := hclass (hnil.encloseOne (hsuper p rfl) m.frame "super") rfl
    simp only [Machine.declareClass]
    split
    · exact ⟨List.forall_mem_singleton.2 (hplain .nil rfl), h.waiting,
        (hadded _ _).1.define (hadded _ _).2 ..⟩
    · exact ⟨List.forall_mem_nil _, h.waiting, (hadded _ _).1⟩

theorem callValue (h : m.HoldsAll P) (s : Setting) (callee : Value) (hargs : ∀ v ∈ arguments, P v)
    (hnew : ∀ c, callee = .cls c → m.heap.Initializes c → P (.object m.heap.instances.size)) :
    (m.callValue s callee arguments).HoldsAll P := by
  unfold Machine.callValue
  split
  · have hticked : { m with heap := m.heap.tick }.HoldsAll P := h.setHeap h.heap.tick
    exact hticked.yield (hplain (.number _) rfl)
  · split
    · exact h.fail _
    · refine h.invoke s _ hargs fun object he => ?_
      split at he <;> cases he
  · next c => exact h.instantiate s _ hargs (hnew c rfl)
  · exact h.fail _

theorem call (h : m.HoldsAll P) (s : Setting) (callee : Value) (paren : Token)
    (hargs : ∀ v ∈ arguments, P v)
    (hnew : ∀ c, callee = .cls c → m.heap.arity? (.cls c) = some arguments.length →
      m.heap.Initializes c → P (.object m.heap.instances.size)) :
    (m.call s callee paren arguments).HoldsAll P := by
  unfold Machine.call
  split
  · exact h.fail _
  · next n hn =>
    split
    · next hlen =>
      refine callValue (m := { m with callToken := some paren }) hplain
        ⟨h.control, h.waiting, h.heap⟩ s callee hargs fun c he => hnew c he ?_
      rw [← he, hn, hlen]
    · exact h.fail _

/-! ## Steps -/

theorem evaluate (h : m.HoldsAll P) (s : Setting) (hc : m.control = .eval e)
    (hnew : ∀ v, m.Makes v → P v) : (m.evaluate s e).HoldsAll P := by
  cases e with
  | missing => exact h.fail _
  | grouping inner => exact h.proceed rfl
  | literal c => cases c <;> exact h.yield (hplain _ rfl)
  | super keyword method => exact h.superMethod hc fun hf => hnew _ (.function hf)
  | this keyword => exact h.read keyword
  | «variable» target => exact h.read target
  | _ => exact h.await s (List.forall_mem_nil _) rfl

theorem execute (h : m.HoldsAll P) (s : Setting) (hc : m.control = .exec t)
    (hnew : ∀ v, m.Makes v → P v) : (m.execute s t).HoldsAll P := by
  cases t with
  | missing => exact h.yield (hplain _ rfl)
  | block body =>
    have hheap : (m.heap.enclose m.frame []).2.HoldsOnly P fun _ => True :=
      h.heap.enclose m.frame nofun
    exact (h.setHeap hheap).enter s (List.forall_mem_nil _) rfl _
  | classDecl name superclass methods =>
    cases superclass with
    | none => exact h.declareClass hplain (hnew _ (.declaration (.base hc))) name none nofun methods
    | some parent => exact h.await s (List.forall_mem_nil _) rfl
  | expression value => exact h.proceed rfl
  | function f =>
    have hf := hnew _ (.function (.statement hc))
    exact (h.setHeap (h.heap.addClosure _)).define hplain hf f.name
  | returning keyword value =>
    cases value with
    | none => exact ⟨List.forall_mem_singleton.2 (hplain _ rfl), h.waiting, h.heap⟩
    | some value => exact h.await s (List.forall_mem_nil _) rfl
  | varDecl name value =>
    cases value with
    | none => exact h.define hplain (hplain _ rfl) name
    | some value => exact h.await s (List.forall_mem_nil _) rfl
  | _ => exact h.await s (List.forall_mem_nil _) rfl

theorem receive {rest : Stack} (h : { m with stack := rest }.HoldsAll P) (s : Setting)
    (hc : m.control = .value v) (hpop : m.stack.pop? = some (w, rest)) (hw : ∀ u ∈ w.held, P u)
    (hnew : ∀ v, m.Makes v → P v) : ({ m with stack := rest }.receive s v w).HoldsAll P := by
  have hi := Stack.items_of_pop? hpop
  have hv : P v := h.control v (hc ▸ List.mem_singleton_self _)
  cases w with
  | assign target => exact h.assign hv target
  | binaryRight operator right => exact h.await s (List.forall_mem_singleton.2 hv) rfl
  | binary left operator => exact h.binary hplain ..
  | callee paren es =>
    cases es with
    | nil =>
      refine h.call hplain s v paren (List.forall_mem_nil _) fun c he ha hk => ?_
      exact hnew _ (.creation (.plain (he ▸ hc) hi) ha hk)
    | cons e es => exact h.await s (List.forall_mem_singleton.2 hv) rfl
  | argument callee paren before es =>
    obtain ⟨hcallee, hbefore⟩ := List.forall_mem_cons.1 hw
    have hall := List.forall_mem_cons.2 ⟨hv, hbefore⟩
    cases es with
    | nil =>
      refine h.call hplain s callee paren (fun u hu => hall u (List.mem_reverse.1 hu)) ?_
      intro c he ha hk
      subst he
      exact hnew _ (.creation (.withArguments hc hi) (by simpa using ha) hk)
    | cons e es => exact h.await s (List.forall_mem_cons.2 ⟨hcallee, hall⟩) rfl
  | get name =>
    cases v with
    | object i =>
      refine h.property hv fun o k c ho hfield hk hclosure => hnew _ (.function ?_)
      exact .bound (.property hc hi ho hfield hk) hclosure
    | _ => exact h.fail _
  | logical operator right =>
    simp only [Machine.receive]
    cases (if operator.kind = .kwOr then v.truthy else !v.truthy)
    · exact h.proceed rfl
    · exact h.yield hv
  | setObject name value =>
    cases v with
    | object i => exact h.await s (List.forall_mem_singleton.2 hv) rfl
    | _ => exact h.fail _
  | setValue object name =>
    exact ⟨List.forall_mem_singleton.2 hv, h.waiting, h.heap.setField hv ..⟩
  | unary operator => exact h.unary hplain ..
  | print => exact ⟨List.forall_mem_singleton.2 (hplain _ rfl), h.waiting, h.heap⟩
  | returnValue => exact ⟨List.forall_mem_singleton.2 hv, h.waiting, h.heap⟩
  | define name => exact h.define hplain hv name
  | branch => exact h.proceed rfl
  | loopTest condition body =>
    simp only [Machine.receive]
    split
    · exact h.await s (List.forall_mem_nil _) rfl
    · exact h.yield (hplain _ rfl)
  | loopBody => exact h.await s (List.forall_mem_nil _) rfl
  | superclass name parent methods =>
    cases v with
    | cls c =>
      refine h.declareClass hplain (hnew _ (.declaration (.derived hc hi))) name (some c) ?_ methods
      intro p hp
      cases hp
      exact hv
    | _ => exact h.fail _
  | rest ts => exact h.proceed rfl
  | leave outer => exact ⟨List.forall_mem_singleton.2 (hplain _ rfl), h.waiting, h.heap⟩
  | activation caller result => exact h.finishCall (hplain .nil rfl) caller hw

/-- A step gets hold of nothing but what it makes. -/
theorem step (h : m.HoldsAll P) (s : Setting) (hnew : ∀ v, m.Makes v → P v) :
    (m.step s).HoldsAll P := by
  have hpopped {w : Waiting} {rest : Stack} (hpop : m.stack.pop? = some (w, rest)) :
      (∀ v ∈ w.held, P v) ∧ { m with stack := rest }.HoldsAll P := by
    have hw := h.waiting
    rw [Stack.items_of_pop? hpop] at hw
    obtain ⟨hw, hrest⟩ := List.forall_mem_cons.1 hw
    exact ⟨hw, h.control, hrest, h.heap⟩
  have hcontrol := h.control
  unfold Machine.step
  split
  · next hc => exact h.evaluate hplain s hc hnew
  · next hc => exact h.execute hplain s hc hnew
  · next ts _ =>
    cases ts with
    | nil => exact h.yield (hplain _ rfl)
    | cons t ts => exact h.await s (List.forall_mem_nil _) rfl
  · next v hc =>
    split
    · next w rest hpop =>
      exact (hpopped hpop).2.receive hplain s hc hpop (hpopped hpop).1 hnew
    · exact h
  · next v hc =>
    rw [hc] at hcontrol
    split
    · next w rest hpop =>
      obtain ⟨hw, hrest⟩ := hpopped hpop
      cases w with
      | activation caller result =>
        exact hrest.finishCall (hcontrol v List.mem_cons_self) caller hw
      | _ => exact ⟨hrest.control, hrest.waiting, hrest.heap⟩
    · exact h.fail _
  · split
    · next w rest hpop =>
      obtain ⟨-, hrest⟩ := hpopped hpop
      cases w <;> exact ⟨hrest.control, hrest.waiting, hrest.heap⟩
    · exact h

end

end HoldsAll

/-! ## What has been made -/

/-- A step that calls a value. -/
theorem Calls.step {m : Machine} (hc : m.Calls v as) (s : Setting) :
    ∃ w rest paren, m.stack.pop? = some (w, rest) ∧
      m.step s = { m with stack := rest }.call s v paren as := by
  obtain ⟨control, ⟨items, n, rfl⟩, frame, heap, printed, callToken⟩ := m
  cases hc with
  | plain hcontrol hi =>
    cases hcontrol
    cases hi
    exact ⟨_, _, _, rfl, rfl⟩
  | withArguments hcontrol hi =>
    cases hcontrol
    cases hi
    exact ⟨_, _, _, rfl, rfl⟩

end Machine

/-- What a value stands for has been made. -/
def Heap.Has (h : Heap) : Value → Prop
  | .closure k => k < h.closures.size
  | .cls c => c < h.classes.size
  | .object o => o < h.instances.size
  | _ => True

theorem Heap.has_of_isPlain (h : Heap) {v : Value} (hv : v.isPlain) : h.Has v := by
  cases v <;> trivial

theorem Heap.LastsIn.has {h h' : Heap} (hl : h.LastsIn h') {v : Value} (hv : h.Has v) :
    h'.Has v := by
  cases v with
  | closure k => exact (Array.getElem?_eq_some_iff.1 (hl.closures (Array.getElem?_eq_getElem hv))).1
  | cls c => exact (Array.getElem?_eq_some_iff.1 (hl.classes (Array.getElem?_eq_getElem hv))).1
  | object o =>
    obtain ⟨fields, ho⟩ := hl.instances (Array.getElem?_eq_getElem hv)
    exact (Array.getElem?_eq_some_iff.1 ho).1
  | _ => trivial

namespace Machine

variable {P : Control → Prop} {m : Machine}

/-- An instance that a step makes is the next one, of the class that is called. -/
theorem Calls.instance_step (hc : m.Calls (.cls c) as)
    (ha : m.heap.arity? (.cls c) = some as.length) (hi : m.heap.Initializes c) (s : Setting) :
    (m.step s).heap.instances = m.heap.instances.push ⟨c, []⟩ := by
  obtain ⟨w, rest, paren, -, hstep⟩ := hc.step s
  simp only [hstep, call, ha, if_pos, callValue, instantiate]
  cases hk : m.heap.method? c Heap.initName with
  | none => rfl
  | some k =>
    obtain ⟨method, hmethod⟩ := hi k hk
    simp only [hmethod, invoke, heap_enter]
    rfl

theorem Makes.has_step (hm : m.Makes v) (s : Setting) : (m.step s).heap.Has v := by
  cases hm with
  | function hf => exact (hf.heap_step s).2
  | declaration hd =>
    obtain ⟨stack, hstep⟩ := step_of_declares hd s
    obtain ⟨_, -, -, hclasses⟩ := heap_declareClass _ _ _ { m with stack }
    rw [Heap.Has, hstep, hclasses]
    exact Nat.lt_of_lt_of_eq (Nat.lt_succ_self _) (Array.size_push _).symm
  | creation hc ha hi =>
    rw [Heap.Has, hc.instance_step ha hi s]
    exact Nat.lt_of_lt_of_eq (Nat.lt_succ_self _) (Array.size_push _).symm

/-- In a session whose tasks hold no values, nothing is held that has not been made. -/
theorem Met.holdsMadeOnly (h : Met P m) (hP : ∀ task, P task → task.values = []) :
    m.HoldsAll m.heap.Has := by
  refine h.induct (Q := fun m => m.HoldsAll m.heap.Has) (fun task ht => ?_) (fun m s _ ih => ?_)
    fun m task _ ih ht => ?_
  · refine ⟨?_, List.forall_mem_nil _, .initial trivial⟩
    rw [Memory.start, hP task ht]
    exact List.forall_mem_nil _
  · refine (ih.mono fun v => (turn_step s m).lastsIn.has).step (fun v => Heap.has_of_isPlain _) s ?_
    exact fun v hv => hv.has_step s
  · refine ⟨?_, List.forall_mem_nil _, ih.heap⟩
    rw [Memory.start, hP task ht]
    exact List.forall_mem_nil _

end Machine

end LoxLang
