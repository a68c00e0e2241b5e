import LoxLang.Proofs.Holdings
import LoxLang.Proofs.ReceiverFamilies

/-!
# What calls of classes and of initializers give back

A call waits on the stack, with its answer or with the frame that the answer is read from, until its
body is left (`answers_of_run`); what the body does in between, and what it returns, does not
matter. So a class that is called gives the instance that was made for the call, and an initializer
that is called as a method gives the instance that it was bound to (`instantiation_gives_instance`).
-/

namespace LoxLang

theorem Stack.pop?_of_items {stack : Stack} (h : stack.items = w :: ws) :
    ∃ rest, stack.pop? = some (w, rest) ∧ rest.items = ws := by
  obtain ⟨_, n, rfl⟩ := stack
  cases h
  exact ⟨_, rfl, rfl⟩

theorem Stack.size_of_pop? {stack rest : Stack} (h : stack.pop? = some (w, rest)) :
    rest.size = stack.size - 1 := by
  have hitems := congrArg List.length (items_of_pop? h)
  rw [List.length_cons, stack.size_eq, rest.size_eq] at hitems
  omega

namespace Machine

open Event

/-- The call that the next step makes is over at a machine: for the first time no more constructs
wait than around the call, and the task in hand is done. -/
def CallEnds (s : Setting) (m m' : Machine) : Prop :=
  ∃ n, m' = (m.step s).run s n ∧ m'.isOver (m.stack.size - 1) = true ∧
    ∀ k < n, ((m.step s).run s k).isOver (m.stack.size - 1) = false

variable {s : Setting} {m m' : Machine} {P : Control → Prop}

/-- The answer of a call whose body is left with a value or by a `return`, if there is one. -/
inductive Answers (h : Heap) : CallResult → Value → Prop where
  | returned : Answers h .returned v
  | receiver : h.frames.getAt i 0 "this" = .ok v → Answers h (.receiver i) v
  | created : Answers h (.created object) (.object object)

theorem answers_finishCall (hv : (m.finishCall caller result u).control = .value v) :
    Answers m.heap result v := by
  cases result with
  | returned => exact .returned
  | created object => cases hv; exact .created
  | receiver frame =>
    simp only [finishCall] at hv
    split at hv
    · next hthis => cases hv; exact .receiver hthis
    · cases hv

/-! ## Calls that wait -/

/-- While a call waits, it goes on waiting, or a step leaves it. -/
theorem waits_step {above rest : List Waiting} (hi : m.stack.items = above ++ w :: rest) :
    (∃ above', (m.step s).stack.items = above' ++ w :: rest) ∨
      above = [] ∧ m.control.isDone = true := by
  obtain hm | ⟨w', rest', hdone, hpop, hm⟩ := m.step_continues s
  · refine .inl ?_
    cases hm with
    | same hs => exact ⟨above, hs.trans hi⟩
    | waiting w' hs => exact ⟨w' :: above, by rw [hs, hi]; rfl⟩
  · have hitems := Stack.items_of_pop? hpop
    cases above with
    | nil => exact .inr ⟨rfl, hdone⟩
    | cons w₀ above =>
      obtain ⟨rfl, hrest⟩ := List.cons.inj (hi.symm.trans hitems)
      refine .inl ?_
      cases hm with
      | same hs => exact ⟨above, hs.trans hrest.symm⟩
      | waiting w'' hs => exact ⟨w'' :: above, by rw [hs]; exact congrArg (w'' :: ·) hrest.symm⟩

/-- A step that leaves a call is the end of it, and its value, if it has one, is the answer. -/
theorem activation_step (hpop : m.stack.pop? = some (.activation caller result, rest))
    (hdone : m.control.isDone = true) :
    (m.step s).isOver rest.size = true ∧ (m.step s).heap = m.heap ∧
      ∀ v, (m.step s).control = .value v → Answers m.heap result v := by
  have hfinish (u : Value) : let m' := { m with stack := rest }.finishCall caller result u
      m'.isOver rest.size = true ∧ m'.heap = m.heap ∧
        ∀ v, m'.control = .value v → Answers m.heap result v := by
    refine ⟨isOver_iff.2 ?_, heap_finishCall .., fun v => answers_finishCall⟩
    cases result with
    | returned | created => exact ⟨rfl, rfl⟩
    | receiver frame =>
      simp only [finishCall]
      split <;> exact ⟨rfl, rfl⟩
  obtain ⟨control, stack, frame, heap, printed, callToken⟩ := m
  dsimp only at hpop
  cases control with
  | value u =>
    simp only [step, hpop]
    exact hfinish .nil
  | returning u =>
    simp only [step, hpop]
    exact hfinish u
  | failing f =>
    simp only [step, hpop]
    exact ⟨isOver_iff.2 ⟨rfl, rfl⟩, rfl, fun v hv => by cases hv⟩
  | _ => cases hdone

/-- When a call that waits is over, its value is the answer of the call, in the heap that there is
then. -/
theorem answers_of_run {above rest : List Waiting}
    (hi : m.stack.items = above ++ .activation caller result :: rest) (n : Nat)
    (hover : (m.run s n).isOver rest.length = true)
    (hbefore : ∀ k < n, (m.run s k).isOver rest.length = false)
    (hv : (m.run s n).control = .value v) : Answers (m.run s n).heap result v := by
  have hlive (m : Machine) {above : List Waiting}
      (hi : m.stack.items = above ++ .activation caller result :: rest) :
      m.isOver rest.length = false ∧ m.halted = false := by
    constructor
    · have hsize := m.stack.size_eq
      rw [hi, List.length_append, List.length_cons] at hsize
      simp only [isOver, Bool.and_eq_false_iff, beq_eq_false_iff_ne]
      exact .inl (by omega)
    · unfold halted
      rw [hi]
      cases above <;> cases m.control <;> rfl
  induction n generalizing m above with
  | zero =>
    rw [run, (hlive m hi).1] at hover
    cases hover
  | succ n ih =>
    have hrun (k : Nat) : m.run s (k + 1) = (m.step s).run s k := by
      rw [run, (hlive m hi).2]
      rfl
    rw [hrun] at hover hv ⊢
    rcases waits_step (s := s) hi with ⟨above', hi'⟩ | ⟨rfl, hdone⟩
    · exact ih hi' hover (fun k hk => hrun k ▸ hbefore (k + 1) (by omega)) hv
    · obtain ⟨rest', hpop, rfl⟩ := Stack.pop?_of_items hi
      obtain ⟨hend, hheap, hanswers⟩ := activation_step (s := s) hpop hdone
      rw [← rest'.size_eq] at hend
      cases n with
      | zero => exact hheap ▸ hanswers v hv
      | succ n =>
        have := hbefore 1 (by omega)
        rw [hrun, run, hend] at this
        cases this

/-! ## Calls that end -/

namespace CallEnds

theorem later (h : m.CallEnds s m') : (m.step s).Later P m' := by
  obtain ⟨n, rfl, -⟩ := h
  exact later_run s n _

theorem at_once (h : m.CallEnds s m') (ho : (m.step s).isOver (m.stack.size - 1) = true) :
    m' = m.step s := by
  obtain ⟨n, rfl, -, hbefore⟩ := h
  cases n with
  | zero => rfl
  | succ n =>
    have := hbefore 0 (by omega)
    rw [run, ho] at this
    cases this

/-- What a call that fails at once gives is no value. -/
theorem ne_value_of_fail (h : m.CallEnds s m') (hpop : m.stack.pop? = some (w, rest))
    {m₁ : Machine} (hs : m₁.stack = rest) (hstep : m.step s = m₁.fail f) :
    m'.control ≠ .value v := by
  have hover : (m.step s).isOver (m.stack.size - 1) = true := by
    rw [hstep, ← Stack.size_of_pop? hpop]
    exact isOver_iff.2 ⟨congrArg Stack.size hs, rfl⟩
  rw [h.at_once hover, hstep]
  nofun

theorem answers_of_invoke (h : m.CallEnds s m') (hpop : m.stack.pop? = some (w, rest))
    {m₁ : Machine} (hs : m₁.stack = rest) (hstep : m.step s = m₁.invoke s c as result)
    (hv : m'.control = .value v) : Answers m'.heap result v := by
  simp only [invoke, enter] at hstep
  split at hstep
  · exact absurd hv (h.ne_value_of_fail hpop (by exact hs) hstep)
  · obtain ⟨n, rfl, hover, hbefore⟩ := h
    rw [← Stack.size_of_pop? hpop, ← rest.size_eq] at hover hbefore
    have hi : (m.step s).stack.items = [] ++ .activation m₁.frame result :: rest.items := by
      rw [hstep, ← hs]
      rfl
    exact answers_of_run hi n hover hbefore hv

/-- A class that is called gives the next instance, which is made for the call. -/
theorem created (h : m.CallEnds s m') (hc : m.Calls (.cls c) as) (hv : m'.control = .value v) :
    v = .object m.heap.instances.size ∧
      ∃ fields, m'.heap.instances[m.heap.instances.size]? = some ⟨c, fields⟩ := by
  obtain ⟨w, rest, paren, hpop, hstep⟩ := hc.step s
  rw [call] at hstep
  split at hstep
  · exact absurd hv (h.ne_value_of_fail hpop rfl hstep)
  · next n harity =>
    split at hstep
    · next hlen =>
      have hmade (hi : m.heap.Initializes c) :
          ∃ fields, m'.heap.instances[m.heap.instances.size]? = some ⟨c, fields⟩ := by
        have hnew := hc.instance_step (harity.trans (congrArg some hlen.symm)) hi s
        exact (h.later (P := fun _ => True)).lastsIn.instances
          (o := ⟨c, []⟩) (hnew ▸ Array.getElem?_push_size)
      simp only [callValue, instantiate] at hstep
      split at hstep
      · next hk =>
        have hover : (m.step s).isOver (m.stack.size - 1) = true := by
          rw [hstep, ← Stack.size_of_pop? hpop]
          exact isOver_iff.2 ⟨rfl, rfl⟩
        refine ⟨?_, hmade fun k hk' => by rw [hk] at hk'; cases hk'⟩
        rw [h.at_once hover, hstep] at hv
        exact (Control.value.inj hv).symm
      · next k hk =>
        split at hstep
        · exact absurd hv (h.ne_value_of_fail hpop rfl hstep)
        · next method hmethod =>
          refine ⟨?_, hmade fun k' hk' => ?_⟩
          · cases h.answers_of_invoke hpop rfl hstep hv
            rfl
          · cases hk.symm.trans hk'
            exact ⟨method, hmethod⟩
    · exact absurd hv (h.ne_value_of_fail hpop rfl hstep)

/-- A function that is called gives what it returns, or the receiver if it is an initializer. -/
theorem answers (h : m.CallEnds s m') (hc : m.Calls (.closure k) as) {c : Closure}
    (hk : m.heap.closures[k]? = some c) (hv : m'.control = .value v) :
    Answers m'.heap (if c.isInitializer then .receiver c.frame else .returned) v := by
  obtain ⟨w, rest, paren, hpop, hstep⟩ := hc.step s
  rw [call] at hstep
  split at hstep
  · exact absurd hv (h.ne_value_of_fail hpop rfl hstep)
  · split at hstep
    · simp only [callValue, hk] at hstep
      exact h.answers_of_invoke hpop rfl hstep hv
    · exact absurd hv (h.ne_value_of_fail hpop rfl hstep)

end CallEnds

/-! ## Initializers that are bound -/

/-- A method that is selected is an initializer if it has the name of one. -/
theorem Met.isInitializer (h : Met P m) (hs : m.Selects k v) {c : Closure}
    (hc : m.heap.closures[k]? = some c) :
    c.isInitializer = (c.declaration.name.lexeme = Heap.initName : Bool) := by
  obtain ⟨i, d, x, hd, hx⟩ : m.heap.HasMethod k := by
    cases hs with
    | property _ _ _ _ hk | super _ _ _ _ hk => exact Heap.hasMethod_of_method? hk
  obtain ⟨b, methods, s, -, -, hintroduces⟩ := h.introduced hd
  obtain ⟨f, -, hname, hclosure⟩ := hintroduces.methods hx
  cases hc.symm.trans hclosure
  exact decide_eq_decide.2 (by rw [hname])

theorem Selects.control_step (hs : m.Selects k v) {c : Closure}
    (hc : m.heap.closures[k]? = some c) (s : Setting) :
    (m.step s).control = .value (.closure m.heap.closures.size) := by
  obtain ⟨control, ⟨items, n, rfl⟩, frame, heap, printed, callToken⟩ := m
  cases hs with
  | property hcontrol hitems ho hfield hk =>
    cases hcontrol
    cases hitems
    dsimp only at ho hk hc
    simp only [step, Stack.pop?, receive, Machine.property, ho, hfield, hk, bindMethod, hc]
    rfl
  | super hcontrol hd hsuper hthis hk =>
    cases hcontrol
    simp only [step, evaluate, superMethod, hd, hsuper, hthis, hk, bindMethod, hc]
    rfl

end Machine

/-- Instantiation gives the new instance. At every moment of a session, a class that is called
gives, if the call ends with a value, the instance that is made for the call: it is of exactly this
class, and nothing that the machine holds before is equal to it. An initializer that is accessed, as
a property of an instance or by `super`, is bound to an instance; and whenever it is called later in
the session, the call gives this instance, if it ends with a value. -/
theorem instantiation_gives_instance (h : Moment colored acts a m log) (s : Setting) :
    (∀ c as m' v, m.Calls (.cls c) as → m.CallEnds s m' → m'.control = .value v →
      v = .object m.heap.instances.size ∧
        (∃ fields, m'.heap.instances[m.heap.instances.size]? = some ⟨c, fields⟩) ∧
        m.HoldsAll (· ≠ v)) ∧
    ∀ k v (c : Closure), m.Selects k v → m.heap.closures[k]? = some c →
      c.declaration.name.lexeme = Heap.initName →
        (∃ object o, v = .object object ∧ m.heap.instances[object]? = some o) ∧
        (m.step s).control = .value (.closure m.heap.closures.size) ∧
        ∀ b as s' b' u, (m.step s).Later Control.FromText b →
          b.Calls (.closure m.heap.closures.size) as → b.CallEnds s' b' →
            b'.control = .value u → u = v := by
  have hm := h.isMet
  refine ⟨fun c as m' v hcalls hends hv => ?_, fun k v c hs hc hname => ?_⟩
  · obtain ⟨rfl, hinstance⟩ := hends.created hcalls hv
    have hheld := hm.holdsMadeOnly fun task (htask : task.FromText) => by cases htask <;> rfl
    refine ⟨rfl, hinstance, hheld.mono fun u hu he => ?_⟩
    rw [he] at hu
    exact Nat.lt_irrefl _ hu
  · obtain ⟨object, o, cls, hobject, ho, -⟩ := h.families.selects h hs
    refine ⟨⟨object, o, hobject, ho⟩, hs.control_step hc s, ?_⟩
    intro b as s' b' u hb hcalls hends hu
    obtain ⟨hclosure, -⟩ := hs.lasts hc hm s hb
    have hinit : c.isInitializer = true := by rw [hm.isInitializer hs hc, hname]; rfl
    have hanswers := hends.answers hcalls hclosure hu
    rw [if_pos hinit] at hanswers
    cases hanswers with
    | receiver hthis =>
      -- The receiver is read when the call is left, from a frame that has had it all along.
      obtain ⟨j, hj, hlookup⟩ := Frames.lookup?_of_getAt hthis
      obtain rfl := Frames.frameAt_zero_eq hj
      obtain ⟨-, hlast⟩ := hs.lasts hc hm s ((Machine.Later.step s' hb).trans hends.later)
      exact Option.some.inj (hlookup.symm.trans hlast)

namespace Machine

/-- The value that the next step calls without arguments. -/
def plainCallee? (m : Machine) : Option Value :=
  match m.control, m.stack.items with
  | .value v, .callee _ [] :: _ => some v
  | _, _ => none

theorem calls_of_plainCallee? {m : Machine} (h : m.plainCallee? = some v) : m.Calls v [] := by
  unfold plainCallee? at h
  split at h
  · next hc hi => cases h; exact .plain hc hi
  · cases h

/-- The instance and the method that the next step binds to each other, if it accesses a property
that is a method. -/
def accessed? (m : Machine) : Option (Nat × Nat) :=
  match m.control, m.stack.items with
  | .value (.object object), .get name :: _ =>
    match m.heap.instances[object]? with
    | none => none
    | some o =>
      match o.fields.get? name.lexeme with
      | some _ => none
      | none => (m.heap.method? o.cls name.lexeme).map fun k => (object, k)
  | _, _ => none

theorem selects_of_accessed? {m : Machine} (h : m.accessed? = some (object, k)) :
    m.Selects k (.object object) := by
  unfold accessed? at h
  split at h
  · next hc hi =>
    split at h
    · cases h
    · next ho =>
      split at h
      · cases h
      · next hfield =>
        obtain ⟨_, hk, he⟩ := Option.map_eq_some_iff.1 h
        cases he
        exact .property hc hi ho hfield hk
  · cases h

/-- The call that the next step makes ends after so many steps more, with a value. -/
def endsCall (s : Setting) (n : Nat) (m : Machine) : Bool :=
  ((m.step s).run s n).isOver (m.stack.size - 1) &&
    (List.range n).all (fun k => !((m.step s).run s k).isOver (m.stack.size - 1)) &&
    ((m.step s).run s n).control matches .value _

theorem callEnds_of_endsCall {m : Machine} (h : m.endsCall s n) :
    m.CallEnds s ((m.step s).run s n) ∧ ∃ v, ((m.step s).run s n).control = .value v := by
  simp only [endsCall, Bool.and_eq_true, List.all_eq_true, List.mem_range, Bool.not_eq_true'] at h
  obtain ⟨⟨hover, hbefore⟩, hvalue⟩ := h
  refine ⟨⟨n, rfl, hover, hbefore⟩, ?_⟩
  split at hvalue
  · next v hv => exact ⟨v, hv⟩
  · cases hvalue

end Machine

/-- The initializer returns early, when it is run for a new instance and when it is called as a
method. -/
theorem instantiation_gives_instance_of_early_return :
    let a : Act := .run true ⟨40, 40, ⟨100, fun _ => 0⟩, 1000⟩ "a.lox"
      "class A{init(){return;}}A().init();"
    let s : Setting := ⟨100, fun _ => 0⟩
    (∃ m log m', Moment false [] a m log ∧ m.Calls (.cls 0) [] ∧ m.CallEnds s m' ∧
      m'.control = .value (.object 0) ∧ m.HoldsAll (· ≠ .object 0)) ∧
    ∃ m log k b', Moment false [] a m log ∧ m.Selects k (.object 0) ∧
      (m.step s).Calls (.closure 1) [] ∧ (m.step s).CallEnds s b' ∧
      b'.control = .value (.object 0) := by
  intro a s
  constructor
  · have hrun : ((Session.start false).machine? a 9).any fun m =>
        m.plainCallee? = some (.cls 0) && m.endsCall s 4 && m.heap.instances.size = 0 := by
      decide +kernel
    obtain ⟨m, hm, hchecks⟩ := (Option.any_eq_true _ _).1 hrun
    simp only [Bool.and_eq_true, decide_eq_true_eq] at hchecks
    obtain ⟨⟨hcallee, hends⟩, hsize⟩ := hchecks
    have hmoment : Moment false [] a m _ := ⟨9, hm, rfl⟩
    have hcalls := Machine.calls_of_plainCallee? hcallee
    obtain ⟨hends, v, hv⟩ := Machine.callEnds_of_endsCall hends
    obtain ⟨rfl, -, hnew⟩ := (instantiation_gives_instance hmoment s).1 _ _ _ v hcalls hends hv
    rw [hsize] at hv hnew
    exact ⟨m, _, _, hmoment, hcalls, hends, hv, hnew⟩
  · have hrun : ((Session.start false).machine? a 14).any fun m =>
        m.accessed? = some (0, 0) && m.heap.closures.size = 1 &&
          (m.heap.closures[0]?.any fun c => c.declaration.name.lexeme = Heap.initName) &&
          (m.step s).plainCallee? = some (.closure 1) && (m.step s).endsCall s 4 := by
      decide +kernel
    obtain ⟨m, hm, hchecks⟩ := (Option.any_eq_true _ _).1 hrun
    simp only [Bool.and_eq_true, decide_eq_true_eq] at hchecks
    obtain ⟨⟨⟨⟨haccessed, hsize⟩, hfirst⟩, hcallee⟩, hends⟩ := hchecks
    obtain ⟨c, hc, hname⟩ := (Option.any_eq_true _ _).1 hfirst
    have hmoment : Moment false [] a m _ := ⟨14, hm, rfl⟩
    have hselects := Machine.selects_of_accessed? haccessed
    have hcalls := Machine.calls_of_plainCallee? hcallee
    obtain ⟨hends, u, hu⟩ := Machine.callEnds_of_endsCall hends
    obtain ⟨-, -, hbound⟩ := (instantiation_gives_instance hmoment s).2 0 _ c hselects hc
      (of_decide_eq_true hname)
    rw [hsize] at hbound
    obtain rfl := hbound _ [] s _ u .refl hcalls hends hu
    exact ⟨m, _, 0, _, hmoment, hselects, hcalls, hends, hu⟩

end LoxLang
