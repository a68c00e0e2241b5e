import LoxLang.Proofs.AssignedNames
import LoxLang.Proofs.HeldReferences
import LoxLang.Proofs.Stages

/-!
# Immutable structure

Over every session, whichever trees its runs are given and wherever they end, frames stay inside the
frames that they were made in, classes and the classes of instances stay as they were, and the
methods of a class are over the frame of its statement (`structure_immutable`). The receiver of a
bound method stays as well if the trees come from text (`Machine.BindsMethod.lookup?_this`): what is
assigned there is never a keyword.
-/

namespace LoxLang

/-- A task that was read from text: a program or an expression, whatever numbers of scopes its
references have been given. -/
inductive Control.FromText : Control → Prop where
  | program : (Grammar.readProgram room (scan text).tokens).value? = some parsed →
      bareStmts program = bareStmts parsed → FromText (.run program)
  | expression : (Grammar.readExpression room (scan text).tokens).value? = some (some parsed) →
      e.bare = parsed.bare → FromText (.eval e)

theorem writable_of_bare {rs rs' : List (ReferenceKind × Reference)}
    (he : rs.map bareReference = rs'.map bareReference) (h : ∀ r ∈ rs', Writable r) :
    ∀ r ∈ rs, Writable r := by
  intro r hr
  obtain ⟨r', hr', hbare⟩ := List.mem_map.1 (he ▸ List.mem_map_of_mem hr)
  -- Whether a reference may be assigned does not depend on its number.
  have hwritable : Writable (bareReference r') := h r' hr'
  rwa [hbare] at hwritable

theorem Control.FromText.writable {task : Control} (h : task.FromText) :
    ∀ r ∈ task.references, Writable r := by
  cases h with
  | program hread hbare =>
    have hwf := Grammar.readProgram_wellFormed (scan_spelled _) hread
    refine writable_of_bare ?_ (writable_stmts _ hwf)
    rw [Control.references, ← stmtReferences_bare, ← stmtReferences_bare, hbare]
  | expression hread hbare =>
    have hwf := Grammar.readExpression_wellFormed (scan_spelled _) hread
    refine writable_of_bare ?_ (Expr.writable _ hwf)
    rw [Control.references, ← Expr.references_bare, ← Expr.references_bare, hbare]

theorem Act.Roots.fromText (h : Act.Roots a n) : n.task.FromText := by
  cases h with
  | run h => exact .program h.read (bareStmts_resolve ..)
  | evaluate h => exact .expression h.read (Expr.bare_resolve ..)

/-- A session of acts is one whose tasks are those of its acts. -/
theorem Session.met_of_tasks {P : Control → Prop} (colored : Bool) (acts : List Act)
    (hP : ∀ before a later, acts = before ++ a :: later → ∀ cfg t,
      ((start colored).after before).task? a = some (cfg, t) → P t) (ht : P task) :
    (((start colored).after acts).memory.start task).Met P := by
  obtain ⟨_, h⟩ := stage_of_tasks colored acts hP ht
  exact h.machine

/-- In a session of acts the tasks are read from text. -/
theorem Session.met_after (colored : Bool) (acts : List Act) (ht : task.FromText) :
    (((start colored).after acts).memory.start task).Met Control.FromText := by
  refine met_of_tasks colored acts (fun before a later _ cfg t htask => ?_) ht
  obtain ⟨n, hn, rfl⟩ := roots_of_task? htask
  exact hn.fromText

/-- Whatever machine is met in a session of acts is one of such a session. -/
theorem Moment.isMet (h : Moment colored acts a m log) : m.Met Control.FromText := by
  obtain ⟨k, hmachine, -⟩ := h.met
  obtain ⟨⟨cfg, task⟩, ht, rfl⟩ := Option.map_eq_some_iff.1 hmachine
  obtain ⟨n, hn, rfl⟩ := Session.roots_of_task? ht
  exact (Session.met_after colored acts hn.fromText).later (Machine.later_run ..)

/-! ## Instances -/

namespace Machine

variable {m : Machine}

/-- The next step sets a field of an instance. -/
def SetsField (m : Machine) (object : Nat) (name : Token) (v : Value) : Prop :=
  m.control = .value v ∧ ∃ rest, m.stack.items = .setValue object name :: rest

theorem instances_addMethods (home : Nat) (fs : List Function) (methods : Bindings Nat) (h : Heap) :
    (addMethods home fs methods h).2.instances = h.instances := by
  induction fs generalizing methods h with
  | nil => rfl
  | cons f fs ih => exact ih _ _

theorem instances_declareClass (name : Token) (superclass : Option Nat) (methods : List Function)
    (m : Machine) :
    (m.declareClass name superclass methods).heap.instances = m.heap.instances := by
  cases superclass <;> simp only [declareClass] <;> split <;> exact instances_addMethods ..

/-- What instances there are after a step: those that there were, a new one without fields, and one
that the step has set a field of. -/
theorem Turn.instance {o : Instance} (ht : Turn m es h i) (ho : h.instances[j]? = some o) :
    m.heap.instances[j]? = some o ∨ (j = m.heap.instances.size ∧ o.fields = []) ∨
      ∃ (name : Token) (v : Value) (old : Instance), m.SetsField j name v ∧
        m.heap.instances[j]? = some old ∧ o = ⟨old.cls, old.fields.insert name.lexeme v⟩ := by
  cases ht with
  | declares => exact .inl (instances_declareClass .. ▸ ho)
  | creates | constructs =>
    rcases of_getElem?_push ho with hold | ⟨hj, rfl⟩
    · exact .inl hold
    · exact .inr (.inl ⟨hj, rfl⟩)
  | @sets v object _ name hc hs =>
    simp only [Heap.setField, Array.getElem?_modify] at ho
    split at ho
    · next hj =>
      subst hj
      obtain ⟨old, hold, rfl⟩ := Option.map_eq_some_iff.1 ho
      exact .inr (.inr ⟨name, v, old, ⟨hc, _, hs⟩, hold, rfl⟩)
    · exact .inl ho
  | _ => exact .inl ho

/-! ## Receivers -/

theorem lookup?_make_of_lt {fs : Frames Value} (hj : j < fs.all.size) (outer : Option Nat)
    (bs : Bindings Value) (x : String) : (fs.make outer bs).2.lookup? j x = fs.lookup? j x :=
  congrArg (Option.bind · _) (Frames.frame?_make_of_lt hj ..)

theorem lookup?_declareClass (hm : m.frame < m.size) (hj : j < m.size) (hne : m.frame ≠ j)
    (name : Token) (superclass : Option Nat) (methods : List Function) (x : String) :
    (m.declareClass name superclass methods).heap.frames.lookup? j x =
      m.heap.frames.lookup? j x := by
  rw [declareClass_eq hm]
  cases superclass with
  | none =>
    simp only [Heap.addClass, Heap.define, frames_addMethods]
    rw [Frames.lookup?_define_of_ne _ (.inl hne), Frames.lookup?_define_of_ne _ (.inl hne)]
  | some p =>
    have hsize : j < (m.heap.frames.define m.frame name.lexeme .nil).all.size := by
      simpa [Frames.define, size] using hj
    simp only [Heap.addClass, Heap.define, Heap.enclose, frames_addMethods]
    rw [Frames.lookup?_define_of_ne _ (.inl hne), lookup?_make_of_lt hsize,
      Frames.lookup?_define_of_ne _ (.inl hne)]

/-- A step of a machine that is elsewhere keeps what a frame binds a keyword to. -/
theorem Turn.lookup?_keyword (ht : Turn m es h i) (hp : m.Pends Writable) (hm : m.frame < m.size)
    (hj : j < m.size) (hne : m.frame ≠ j) (hx : ¬IsIdentifier x) :
    h.frames.lookup? j x = m.heap.frames.lookup? j x := by
  cases ht with
  | quiet | creates | asks | sets => rfl
  | declare | function => exact Frames.lookup?_define_of_ne _ (.inl hne) _
  | @assign v r _ _ hc hs =>
    have hw := hp.waiting
    rw [Waits, hs] at hw
    have hname := (List.forall_mem_cons.1 hw).1 _ List.mem_cons_self rfl
    exact Frames.lookup?_define_of_ne _ (.inr fun he => hx (by rw [he]; exact hname)) _
  | block | calls | binds => exact lookup?_make_of_lt hj ..
  | declares => exact lookup?_declareClass hm hj hne ..
  | constructs =>
    refine (lookup?_make_of_lt ?_ ..).trans (lookup?_make_of_lt hj ..)
    exact Nat.lt_of_lt_of_eq (Nat.lt_succ_of_lt hj) (size_enclose ..).symm

/-- What a frame binds a keyword to stays if nothing goes on in the frame. -/
theorem Later.lookup?_keyword {a b : Machine} (ha : a.Met Control.FromText)
    (h : a.Later Control.FromText b) (hj : j < a.size) (haround : a.Around (· ≠ j))
    (hx : ¬IsIdentifier x) : b.heap.frames.lookup? j x = a.heap.frames.lookup? j x := by
  induction h with
  | refl => rfl
  | @step m s h ih =>
    have hm := ha.later h
    obtain ⟨hlt, hne⟩ := h.aside hj haround
    have hholds := hm.holds fun _ ht => ht.writable
    exact ((turn_step s m).lookup?_keyword hholds.pends hm.inRange.around.current hlt hne.current
      hx).trans ih
  | next _ _ ih => exact ih

/-- What a step binds a method to is the `this` of the frame that it makes, for good. -/
theorem BindsMethod.lookup?_this {a b : Machine} (hbinds : a.BindsMethod c v)
    (ha : a.Met Control.FromText) (s : Setting) (h : (a.step s).Later Control.FromText b) :
    b.heap.frames.lookup? a.size "this" = some v := by
  have hrange := ha.inRange
  obtain ⟨hframe, -⟩ := (turn_step s a).of_binding hbinds hrange.around.current
  have hbound : (a.step s).heap.frames.lookup? a.size "this" = some v := by
    rw [Frames.lookup?, hframe]
    rfl
  have hclear := hrange.clear hbinds s
  exact (h.lookup?_keyword (ha.later (.step s .refl)) hclear.lt hclear.around (by decide)).trans
    hbound

theorem Selects.bindsMethod (hs : m.Selects k v) {c : Closure}
    (hc : m.heap.closures[k]? = some c) : m.BindsMethod c v := by
  have hevents : m.events = Event.binding m.size c v := by
    cases hs with
    | property hcontrol hi ho hfield hk =>
      simp only [events, hcontrol, hi, receiveEvents, propertyEvents, ho, hfield, hk,
        bindMethodEvents, hc]
    | super hcontrol hd hsuper hthis hk =>
      simp only [events, hcontrol, superMethodEvents, hd, hsuper, hthis, hk, bindMethodEvents, hc]
  exact ⟨[], by rw [hevents, List.append_nil]⟩

/-- A method that a step binds is a function that has the same receiver for good. -/
theorem Selects.lasts (hs : m.Selects k v) {c : Closure} (hc : m.heap.closures[k]? = some c)
    (hm : m.Met Control.FromText) (s : Setting) (h : (m.step s).Later Control.FromText b) :
    b.heap.closures[m.heap.closures.size]? = some { c with frame := m.size } ∧
      b.heap.frames.lookup? m.size "this" = some v := by
  refine ⟨h.lastsIn.closures ?_, (hs.bindsMethod hc).lookup?_this hm s h⟩
  rw [hs.heap_step hc s]
  exact Array.getElem?_push_size

end Machine

open Machine in
/-- Run-time structure is immutable where it is meant to be. In every session, whichever tasks its
runs start with: what is made lasts; every class comes from a class statement that was executed in a
frame, and its methods are closures of the functions in the statement over this frame, or over a
frame with `super` directly inside it, and never over a frame that was made to bind a method; an
instance changes only where one of its fields is set; and if the trees are read from text, a frame
that was made to bind a method has the same `this` for good. -/
theorem structure_immutable (P : Control → Prop) :
    (∀ a b : Machine, a.Later P b → a.heap.LastsIn b.heap) ∧
    (∀ b : Machine, b.Met P → ∀ (i : Nat) (c : Class), b.heap.classes[i]? = some c →
      ∃ (a : Machine) (methods : List Function) (s : Setting),
        a.Met P ∧ (a.step s).Later P b ∧ a.Introduces b.heap i c methods) ∧
    (∀ (a b : Machine) (c : Closure) (v : Value) (s : Setting), a.Met P → a.BindsMethod c v →
      (a.step s).Later P b →
        (∃ bs, b.heap.frames.frame? a.size = some ⟨some c.frame, bs⟩ ∧ bs.contains "this") ∧
        ∀ (k : Nat) (method : Closure), b.heap.HasMethod k →
          b.heap.closures[k]? = some method → method.frame ≠ a.size) ∧
    (∀ (m : Machine) (s : Setting) (j : Nat) (o : Instance),
      (m.step s).heap.instances[j]? = some o →
        m.heap.instances[j]? = some o ∨ (j = m.heap.instances.size ∧ o.fields = []) ∨
          ∃ (name : Token) (v : Value) (old : Instance), m.SetsField j name v ∧
            m.heap.instances[j]? = some old ∧ o = ⟨old.cls, old.fields.insert name.lexeme v⟩) ∧
    (∀ (a b : Machine) (c : Closure) (v : Value) (s : Setting), a.Met Control.FromText →
      a.BindsMethod c v → (a.step s).Later Control.FromText b →
        b.heap.frames.lookup? a.size "this" = some v) := by
  refine ⟨fun a b h => h.lastsIn, fun b hb i c hc => hb.introduced hc, ?_,
    fun m s j o ho => (turn_step s m).instance ho, ?_⟩
  · intro a b c v s ha hbinds h
    have hrange := ha.inRange
    obtain ⟨hframe, -⟩ := (turn_step s a).of_binding hbinds hrange.around.current
    obtain ⟨bs, hbs, hgain⟩ := h.lastsIn.frames hframe
    have hclear := h.clear (hrange.clear hbinds s)
    exact ⟨⟨bs, hbs, hgain _ rfl⟩, fun k method hk hc => hclear.methods hk hc⟩
  · exact fun a b c v s ha hbinds h => hbinds.lookup?_this ha s h

/-- The next step binds a method. -/
def Machine.isBinding (m : Machine) : Bool :=
  match m.events with
  | .made _ (.receiver _) :: .stored ⟨j, "this", _, .receiver⟩ :: _ => j = m.size
  | _ => false

theorem Machine.bindsMethod_of_isBinding {m : Machine} (h : m.isBinding) :
    ∃ c v, m.BindsMethod c v := by
  unfold isBinding at h
  split at h
  · next outer f j v rest he =>
    have hj : j = m.size := of_decide_eq_true h
    subst hj
    exact ⟨⟨f, outer, false⟩, v, rest, he.symm⟩
  · cases h

/-- A method is bound to an instance of a subclass, and the run is given up while the method is
called. In the next run of the session all is as it was made. -/
theorem structure_immutable_after_interrupt :
    let a : Act := .run true ⟨40, 40, ⟨100, fun _ => 0⟩, 1000⟩ "a.lox"
      "class A { m() { return this; } } class B < A { } var b = B(); b.x = 1; var m = b.m; m();"
    let s : Setting := ⟨100, fun _ => 0⟩
    ∃ (m b : Machine) (c method : Closure) (v : Value) (d : Class) (o : Instance),
      ((∃ log, Moment false [] a m log) ∧ m.Met Control.FromText ∧ m.BindsMethod c v ∧
        (m.step s).Later Control.FromText b ∧ b.control = .run [] ∧
        b.heap.classes[1]? = some d ∧ b.heap.HasMethod 0 ∧ b.heap.closures[0]? = some method ∧
        (m.step s).heap.instances[0]? = some o) ∧
      m.heap.LastsIn b.heap ∧
      (∃ (earlier : Machine) (methods : List Function), earlier.Introduces b.heap 1 d methods) ∧
      method.frame ≠ m.size ∧ b.heap.frames.lookup? m.size "this" = some v ∧
      (m.heap.instances[0]? = some o ∨ (0 = m.heap.instances.size ∧ o.fields = []) ∨
        ∃ (name : Token) (v : Value) (old : Instance), m.SetsField 0 name v ∧
          m.heap.instances[0]? = some old ∧ o = ⟨old.cls, old.fields.insert name.lexeme v⟩) := by
  intro a s
  have hrun : ((Session.start false).machine? a 27).any fun m =>
      let h := ((m.step s).run s 3).heap
      m.isBinding && (h.classes[0]?.any fun d => d.methods.get? "m" = some 0) &&
        h.classes[1]?.isSome && h.closures[0]?.isSome && (m.step s).heap.instances[0]?.isSome := by
    decide +kernel
  have hempty : (Grammar.readProgram 40 (scan []).tokens).value? = some [] := rfl
  obtain ⟨m, hm, hchecks⟩ := (Option.any_eq_true _ _).1 hrun
  simp only [Bool.and_eq_true, Option.isSome_iff_exists] at hchecks
  obtain ⟨⟨⟨⟨hbinding, hfirst⟩, d, hd⟩, method, hmethod⟩, o, ho⟩ := hchecks
  obtain ⟨c, v, hbinds⟩ := Machine.bindsMethod_of_isBinding hbinding
  obtain ⟨d₀, hd₀, hk⟩ := (Option.any_eq_true _ _).1 hfirst
  have hmoment : ∃ log, Moment false [] a m log := ⟨_, 27, hm, rfl⟩
  have hmet := hmoment.choose_spec.isMet
  let b := ((m.step s).run s 3).memory.start (.run [])
  have hlater : (m.step s).Later Control.FromText b :=
    .next (Machine.later_run s 3 _) (.program hempty rfl)
  have hall : m.Later Control.FromText b := (Machine.Later.step s .refl).trans hlater
  have hhas : b.heap.HasMethod 0 := ⟨0, d₀, "m", hd₀, of_decide_eq_true hk⟩
  obtain ⟨hlasts, hclasses, hbound, hinstances, hthis⟩ := structure_immutable Control.FromText
  obtain ⟨earlier, methods, -, -, -, hintroduces⟩ := hclasses b (hmet.later hall) 1 d hd
  exact ⟨m, b, c, method, v, d, o, ⟨hmoment, hmet, hbinds, hlater, rfl, hd, hhas, hmethod, ho⟩,
    hlasts m b hall, ⟨earlier, methods, hintroduces⟩,
    (hbound m b c v s hmet hbinds hlater).2 0 method hhas hmethod,
    hthis m b c v s hmet hbinds hlater, hinstances m s 0 o ho⟩

end LoxLang
