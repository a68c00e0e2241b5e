import LoxLang.Proofs.ClassSteps
import LoxLang.Proofs.Histories

/-!
# Steps that store

`Machine.Stores` lists what a step of any machine can store in a frame, each with the construct that
makes it do so: a declaration binds its name in the current frame, an assignment goes to the frame
that its reference leads to, and all else goes to frames that the step makes itself. What is bound
after a step was bound before it or is stored by it, so names come into a frame in these ways only
(`Machine.stores_of_change`).
-/

namespace LoxLang

/-- The globals hold what they bind themselves. -/
theorem Frames.holder?_root_iff {fs : Frames Value} (h : fs.frame? i = some ⟨none, bs⟩) :
    fs.holder? i x = some j ↔ j = i ∧ ∃ v, fs.lookup? i x = some v := by
  have hlookup : (∃ v, fs.lookup? i x = some v) ↔ bs.contains x := by
    simp [lookup?, h, Bindings.contains, Option.isSome_iff_exists]
  rw [hlookup]
  constructor
  · intro hj
    refine ⟨holder?_root h hj, ?_⟩
    simp only [holder?, holderWithin, h] at hj
    split at hj
    · assumption
    · cases hj
  · rintro ⟨rfl, hx⟩
    exact Machine.holder?_self h hx

namespace Machine

open Event

/-- The next step binds the name that a statement declares: the statement is executed, or what it
waited for has come. -/
inductive Declaring (m : Machine) : Stmt → Token → Prop where
  | variable : m.control = .exec (.varDecl t none) → Declaring m (.varDecl t none) t
  | initialized (e : Expr) : m.control = .value v → m.stack.items = .define t :: items →
    Declaring m (.varDecl t (some e)) t
  | function : m.control = .exec (.function f) → Declaring m (.function f) f.name
  | class (parent : Option Reference) : m.Declares t superclass methods →
    superclass.isSome = parent.isSome → Declaring m (.classDecl t parent methods) t

/-- The next step carries out an assignment. -/
def Assigning (m : Machine) (r : Reference) (v : Value) : Prop :=
  m.control = .value v ∧ ∃ items, m.stack.items = .assign r :: items

/-- The frame that an assignment goes to. -/
def target? (r : Reference) (m : Machine) : Option Nat :=
  match r.hops with
  | some d => (m.heap.frames.frameAt m.frame d).toOption
  | none => m.heap.frames.holder? Heap.globals r.name.lexeme

theorem target?_of_hops {m : Machine} (hd : r.hops = some d) :
    m.target? r = some j ↔ m.heap.frames.frameAt m.frame d = .ok j := by
  simp only [target?, hd]
  cases m.heap.frames.frameAt m.frame d <;> simp [Except.toOption]

theorem target?_of_global {m : Machine} (hd : r.hops = none) :
    m.target? r = m.heap.frames.holder? Heap.globals r.name.lexeme := by
  rw [target?, hd]

/-- What the next step can store. -/
inductive Stores (m : Machine) : Storing → Prop where
  | declaration : m.Declaring st t → Stores m ⟨m.frame, t.lexeme, v, .declaration t⟩
  | assignment : m.Assigning r v → m.target? r = some j →
    Stores m ⟨j, r.name.lexeme, v, .assignment r⟩
  | parameter {k : Nat} {c : Closure} : m.heap.closures[k]? = some c →
    p ∈ c.declaration.parameters → m.size ≤ j → Stores m ⟨j, p.lexeme, v, .declaration p⟩
  | receiver : Stores m ⟨m.size, "this", v, .receiver⟩
  | superclass : Stores m ⟨m.size, "super", v, .superclass⟩

section
variable {m : Machine}

theorem stores_assign (ha : m.Assigning r v) : ∀ e ∈ storings (m.assignEvents r v), m.Stores e := by
  have htarget {j : Nat} (hj : m.target? r = some j) :
      ∀ e ∈ storings [.stored ⟨j, r.name.lexeme, v, .assignment r⟩], m.Stores e :=
    List.forall_mem_singleton.2 (.assignment ha hj)
  unfold assignEvents
  cases hd : r.hops with
  | some d =>
    dsimp only
    cases hj : m.heap.frames.frameAt m.frame d with
    | ok j => exact htarget ((target?_of_hops hd).2 hj)
    | error f => exact List.forall_mem_nil _
  | none =>
    dsimp only
    cases hj : m.heap.frames.holder? Heap.globals r.name.lexeme with
    | some j => exact htarget (by rw [target?_of_global hd, hj])
    | none => exact List.forall_mem_nil _

theorem stores_binding (c : Closure) (receiver : Value) :
    ∀ e ∈ storings (binding m.size c receiver), m.Stores e :=
  List.forall_mem_singleton.2 .receiver

theorem stores_calling {k : Nat} {c : Closure} (hc : m.heap.closures[k]? = some c) (hj : m.size ≤ j)
    (frame : Nat) (arguments : List Value) :
    ∀ e ∈ storings (calling j { c with frame } arguments), m.Stores e := by
  intro e he
  obtain ⟨ev, hev, he⟩ := List.mem_filterMap.1 he
  rcases List.mem_cons.1 hev with rfl | hev
  · cases he
  · obtain ⟨⟨p, v⟩, hp, rfl⟩ := List.mem_map.1 hev
    cases he
    exact .parameter hc (List.of_mem_zip hp).1 hj

theorem stores_bindMethod (k : Nat) (receiver : Value) :
    ∀ e ∈ storings (m.bindMethodEvents k receiver), m.Stores e := by
  unfold bindMethodEvents
  split
  · exact List.forall_mem_nil _
  · exact stores_binding _ receiver

theorem stores_property (object : Nat) (name : Token) :
    ∀ e ∈ storings (m.propertyEvents object name), m.Stores e := by
  unfold propertyEvents
  split
  · exact List.forall_mem_nil _
  · split
    · exact stores_bindMethod _ _
    · exact List.forall_mem_nil _

theorem stores_superMethod (keyword : Reference) (method : Token) :
    ∀ e ∈ storings (m.superMethodEvents keyword method), m.Stores e := by
  unfold superMethodEvents
  split
  · exact List.forall_mem_nil _
  · split
    · split
      · exact stores_bindMethod _ _
      · exact List.forall_mem_nil _
    · exact List.forall_mem_nil _

theorem stores_declareClass (hd : m.Declares name superclass methods) :
    ∀ e ∈ storings (m.declareClassEvents name superclass methods), m.Stores e := by
  have hdeclaring : ∃ st, m.Declaring st name :=
    ⟨_, .class (superclass.map fun _ => ⟨name, none⟩) hd (by simp)⟩
  have hname (v : Value) : ∀ e ∈ storings [declare m.frame name v], m.Stores e :=
    List.forall_mem_singleton.2 (.declaration hdeclaring.choose_spec)
  unfold declareClassEvents
  rw [storings_append, storings_append]
  refine List.forall_mem_append.2 ⟨List.forall_mem_append.2 ⟨hname _, ?_⟩, hname _⟩
  cases superclass with
  | none => exact List.forall_mem_nil _
  | some c => exact List.forall_mem_singleton.2 .superclass

theorem stores_instantiate (cls : Nat) (arguments : List Value) :
    ∀ e ∈ storings (m.instantiateEvents cls arguments), m.Stores e := by
  unfold instantiateEvents
  split
  · exact List.forall_mem_nil _
  · split
    · exact List.forall_mem_nil _
    · next c hc =>
      rw [storings_append]
      refine List.forall_mem_append.2 ⟨stores_binding c _, ?_⟩
      exact stores_calling hc (Nat.le_succ _) _ arguments

theorem stores_call (callee : Value) (arguments : List Value) :
    ∀ e ∈ storings (m.callEvents callee arguments), m.Stores e := by
  unfold callEvents callValueEvents
  split
  · split
    · split
      · exact List.forall_mem_nil _
      · next c hc => exact stores_calling hc (Nat.le_refl _) c.frame arguments
    · exact stores_instantiate _ _
    · exact List.forall_mem_nil _
  · exact List.forall_mem_nil _

theorem stores_execute (hc : m.control = .exec t) :
    ∀ e ∈ storings (m.executeEvents t), m.Stores e := by
  cases t with
  | classDecl name superclass methods =>
    cases superclass with
    | none => exact stores_declareClass (.base hc)
    | some parent => exact List.forall_mem_nil _
  | function f => exact List.forall_mem_singleton.2 (.declaration (.function hc))
  | varDecl name value =>
    cases value with
    | none => exact List.forall_mem_singleton.2 (.declaration (.variable hc))
    | some value => exact List.forall_mem_nil _
  | _ => exact List.forall_mem_nil _

theorem stores_receive (hc : m.control = .value v) (hs : m.stack.items = w :: items) :
    ∀ e ∈ storings (m.receiveEvents v w), m.Stores e := by
  cases w with
  | assign target => exact stores_assign ⟨hc, items, hs⟩
  | callee paren es =>
    rw [receiveEvents_callee]
    split
    · exact stores_call _ _
    · exact List.forall_mem_nil _
  | argument callee paren before es =>
    rw [receiveEvents_argument]
    split
    · exact stores_call _ _
    · exact List.forall_mem_nil _
  | get name =>
    cases v with
    | object i => exact stores_property _ _
    | _ => exact List.forall_mem_nil _
  | define name => exact List.forall_mem_singleton.2 (.declaration (.initialized .missing hc hs))
  | superclass name parent methods =>
    cases v with
    | cls c => exact stores_declareClass (.derived hc hs)
    | _ => exact List.forall_mem_nil _
  | _ => exact List.forall_mem_nil _

/-- A step stores nothing else. -/
theorem stores_events (m : Machine) : ∀ e ∈ storings m.events, m.Stores e := by
  unfold events
  split
  · exact stores_superMethod _ _
  · next hc => exact stores_execute hc
  · next hc hs => exact stores_receive hc hs
  · exact List.forall_mem_nil _

end

end Machine

/-- What is assigned is the target of a visited assignment, in the frame of its site. -/
theorem Sound.assigning {m : Machine} (hm : Sound V R m) (ha : m.Assigning r v) :
    ∃ target e σ, r = target.resolve σ.scopes ∧ V (.expr (.assign target e)) σ ∧
      At R m.heap m.frame σ := by
  obtain ⟨hc, items, hs⟩ := ha
  have hcontrol := hm.control
  rw [hc, hs] at hcontrol
  cases hcontrol with
  | value _ hat hstack =>
    cases hstack with
    | waiting hj =>
      cases hj with
      | assign hv => exact ⟨_, _, _, rfl, hv, hat⟩

theorem Event.lookup?_made (fs : Frames Value) (outer : Nat) (ρ : Region) (j : Nat) (x : String) :
    (perform fs (made outer ρ)).lookup? j x = fs.lookup? j x := by
  by_cases hj : j < fs.all.size
  · exact congrArg (Option.bind · _) (Frames.frame?_make_of_lt hj ..)
  · have hnone : fs.frame? j = none := Array.getElem?_eq_none (Nat.le_of_not_lt hj)
    by_cases heq : j = fs.all.size
    · -- The new frame binds nothing yet.
      have hnew : (perform fs (made outer ρ)).frame? j = some ⟨some outer, []⟩ :=
        heq ▸ Frames.frame?_make_self ..
      rw [Frames.lookup?, Frames.lookup?, hnew, hnone]
      rfl
    · have hbeyond : (perform fs (made outer ρ)).frame? j = none :=
        Array.getElem?_eq_none (by simp [perform, Frames.make]; omega)
      rw [Frames.lookup?, Frames.lookup?, hbeyond, hnone]

/-- What a frame binds a name to changes only by a store. -/
theorem Event.lookup?_replay (es : List Event) {fs : Frames Value}
    (h : ∀ e ∈ storings es, ¬(e.frame = j ∧ e.name = x)) :
    (replay es fs).lookup? j x = fs.lookup? j x := by
  induction es generalizing fs with
  | nil => rfl
  | cons e es ih =>
    cases e with
    | made outer ρ => rw [replay_cons, ih h, lookup?_made]
    | stored e =>
      obtain ⟨he, hes⟩ := List.forall_mem_cons.1 h
      rw [replay_cons, ih hes, perform]
      exact Frames.lookup?_define_of_ne _ ((Decidable.not_and_iff_or_not.1 he).imp_right Ne.symm) _

/-- A step that changes what a frame binds a name to stores it. -/
theorem Machine.stores_of_change {m : Machine} (hm : m.events ≠ [] → m.frame < m.size) {s : Setting}
    (h : (m.step s).heap.frames.lookup? j x ≠ m.heap.frames.lookup? j x) :
    ∃ e ∈ Event.storings m.events, e.frame = j ∧ e.name = x := by
  by_contra hno
  refine h ?_
  rw [frames_step s hm]
  exact Event.lookup?_replay _ fun e he hjx => hno ⟨e, he, hjx⟩

end LoxLang
