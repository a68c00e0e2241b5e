import LoxLang.Proofs.Mirror
import LoxLang.Proofs.Turns

/-!
# What lasts in a session

The runs of a session follow one another, and each may be given up between any two of its steps
(`Later`); whatever they execute, what has been made stays as it was made (`Later.lastsIn`). Frames
only gain names and instances only fields, and where a machine can still go, it goes through frames
that it has been in and through new ones (`Around.step`).
-/

namespace LoxLang

/-! ## Heaps -/

/-- What one heap has made is the same in another one, except that frames may have gained names,
that names may have been bound again, and that fields may have been set. -/
structure Heap.LastsIn (h h' : Heap) : Prop where
  frames {i : Nat} {outer : Option Nat} {bs : Bindings Value} :
    h.frames.frame? i = some ⟨outer, bs⟩ →
      ∃ bs', h'.frames.frame? i = some ⟨outer, bs'⟩ ∧ ∀ x, bs.contains x → bs'.contains x
  closures {i : Nat} {c : Closure} : h.closures[i]? = some c → h'.closures[i]? = some c
  classes {i : Nat} {c : Class} : h.classes[i]? = some c → h'.classes[i]? = some c
  instances {i : Nat} {o : Instance} :
    h.instances[i]? = some o → ∃ fields, h'.instances[i]? = some ⟨o.cls, fields⟩

theorem getElem?_push_of_some {xs : Array α} {i : Nat} (h : xs[i]? = some a) (b : α) :
    (xs.push b)[i]? = some a := by
  rw [Array.getElem?_push, if_neg (Nat.ne_of_lt (Array.getElem?_eq_some_iff.1 h).1), h]

theorem of_getElem?_push {xs : Array α} {i : Nat} {x y : α} (h : (xs.push y)[i]? = some x) :
    xs[i]? = some x ∨ i = xs.size ∧ x = y := by
  rw [Array.getElem?_push] at h
  split at h
  · next hi => exact .inr ⟨hi, (Option.some.inj h).symm⟩
  · exact .inl h

namespace Heap.LastsIn

variable {h h' : Heap}

theorem refl (h : Heap) : h.LastsIn h := ⟨fun hf => ⟨_, hf, fun _ => id⟩, id, id, fun ho => ⟨_, ho⟩⟩

theorem trans (h₁ : LastsIn h h') (h₂ : LastsIn h' h'') : LastsIn h h'' where
  frames hf := by
    obtain ⟨bs', hf', hbs⟩ := h₁.frames hf
    obtain ⟨bs'', hf'', hbs'⟩ := h₂.frames hf'
    exact ⟨bs'', hf'', fun x hx => hbs' x (hbs x hx)⟩
  closures hc := h₂.closures (h₁.closures hc)
  classes hc := h₂.classes (h₁.classes hc)
  instances ho := by
    obtain ⟨fields, ho'⟩ := h₁.instances ho
    obtain ⟨fields', ho''⟩ := h₂.instances ho'
    exact ⟨fields', ho''⟩

/-- Where classes and instances are left alone, growing is enough. -/
theorem of_grows (hg : Grows R h R' h') (hc : h'.classes = h.classes)
    (ho : h'.instances = h.instances) : h.LastsIn h' :=
  ⟨hg.frames, hg.closures, fun h => hc ▸ h, fun h => ⟨_, ho ▸ h⟩⟩

theorem define (h : Heap) (i : Nat) (x : String) (v : Value) : h.LastsIn (h.define i x v) :=
  of_grows (.define [] h i x v) rfl rfl

theorem enclose (h : Heap) (outer : Nat) (bs : Bindings Value) :
    h.LastsIn (h.enclose outer bs).2 :=
  of_grows (.enclose [] h .globals outer bs) rfl rfl

theorem addClosure (h : Heap) (c : Closure) : h.LastsIn (h.addClosure c).2 :=
  of_grows (.addClosure [] h c) rfl rfl

theorem addClass (h : Heap) (c : Class) : h.LastsIn (h.addClass c).2 :=
  ⟨(refl h).frames, id, fun hc => getElem?_push_of_some hc _, (refl h).instances⟩

theorem addInstance (h : Heap) (cls : Nat) : h.LastsIn (h.addInstance cls).2 :=
  ⟨(refl h).frames, id, id, fun ho => ⟨_, getElem?_push_of_some ho _⟩⟩

theorem tick (h : Heap) : h.LastsIn h.tick := of_grows (.tick [] h) rfl rfl

theorem setField (h : Heap) (object : Nat) (x : String) (v : Value) :
    h.LastsIn (h.setField object x v) where
  frames := (refl h).frames
  closures := id
  classes := id
  instances ho := by
    simp only [Heap.setField, Array.getElem?_modify, ho, Option.map_some]
    split
    · exact ⟨_, rfl⟩
    · exact ⟨_, rfl⟩

theorem bind (h : Heap) (c : Closure) (receiver : Value) : h.LastsIn (h.bind c receiver).2 :=
  (enclose h c.frame _).trans (addClosure ..)

theorem addMethods (frame : Nat) (fs : List Function) (methods : Bindings Nat) (h : Heap) :
    h.LastsIn (Machine.addMethods frame fs methods h).2 := by
  induction fs generalizing methods h with
  | nil => exact .refl h
  | cons f fs ih => exact (addClosure ..).trans (ih _ _)

theorem declareClass (name : Token) (superclass : Option Nat) (methods : List Function)
    (m : Machine) : m.heap.LastsIn (m.declareClass name superclass methods).heap := by
  have hclass (h : Heap) (c : Class) (frame : Nat) :
      h.LastsIn ((Machine.addMethods frame methods [] h).2.addClass c).2 :=
    (addMethods ..).trans (addClass ..)
  cases superclass with
  | none =>
    simp only [Machine.declareClass]
    split
    · exact (define ..).trans ((hclass ..).trans (define ..))
    · exact (define ..).trans (hclass ..)
  | some p =>
    simp only [Machine.declareClass]
    split
    · exact (define ..).trans ((enclose ..).trans ((hclass ..).trans (define ..)))
    · exact (define ..).trans ((enclose ..).trans (hclass ..))

theorem size_le (h₁ : LastsIn h h') : h.frames.all.size ≤ h'.frames.all.size := by
  rcases Nat.lt_or_ge 0 h.frames.all.size with hpos | hzero
  · obtain ⟨bs', hf, -⟩ := h₁.frames (i := h.frames.all.size - 1)
      (Array.getElem?_eq_getElem (Nat.sub_one_lt_of_lt hpos))
    have := Frames.lt_of_frame? hf
    omega
  · omega

end Heap.LastsIn

theorem Machine.Turn.lastsIn (ht : Machine.Turn m es h i) : m.heap.LastsIn h := by
  cases ht with
  | quiet => exact .refl _
  | declare | assign => exact .define ..
  | block | calls => exact .enclose ..
  | function => exact .trans (.addClosure ..) (.define ..)
  | declares => exact .declareClass ..
  | binds => exact .bind ..
  | creates => exact .addInstance ..
  | constructs => exact .trans (.addInstance ..) (.trans (.enclose ..) (.enclose ..))
  | asks => exact .tick ..
  | sets => exact .setField ..

/-- The frame that leaving a construct leads to, whatever frame is current. -/
def Waiting.outer? : Waiting → Option Nat
  | leave outer => some outer
  | activation caller _ => some caller
  | _ => none

theorem Waiting.frameAfter_eq (w : Waiting) (current : Nat) :
    w.frameAfter current = w.outer?.getD current := by
  cases w <;> rfl

theorem Waiting.frameAfter_of {Q : Nat → Prop} {w : Waiting} (hw : ∀ i ∈ w.outer?, Q i)
    (hi : Q i) : Q (w.frameAfter i) := by
  rw [frameAfter_eq]
  cases ho : w.outer? with
  | none => exact hi
  | some outer => exact hw outer ho

namespace Machine

/-! ## Sessions -/

/-- What a run leaves behind that is given up now, or that is over. -/
def memory (m : Machine) : Memory := ⟨m.heap, m.homeFrame, none⟩

/-- A machine that comes later in a session: after more steps, or in a later run. All runs that
start in between start with tasks of one kind. -/
inductive Later (P : Control → Prop) (m : Machine) : Machine → Prop where
  | refl : Later P m m
  | step (s : Setting) : Later P m m' → Later P m (m'.step s)
  | next : Later P m m' → P task → Later P m (m'.memory.start task)

/-- A machine of a session in which all runs start with tasks of one kind. -/
def Met (P : Control → Prop) (m : Machine) : Prop :=
  ∃ task, P task ∧ (Memory.initial.start task).Later P m

variable {P : Control → Prop} {a b : Machine}

theorem Later.trans (h₁ : Later P a b) (h₂ : Later P b c) : Later P a c := by
  induction h₂ with
  | refl => exact h₁
  | step s _ ih => exact .step s ih
  | next _ ht ih => exact .next ih ht

theorem Met.later (h₁ : Met P a) (h₂ : Later P a b) : Met P b := by
  obtain ⟨task, ht, h⟩ := h₁
  exact ⟨task, ht, h.trans h₂⟩

/-- What starts, steps and new runs keep is so of every machine that is met. -/
theorem Met.induct {Q : Machine → Prop} (h : Met P a)
    (start : ∀ task, P task → Q (Memory.initial.start task))
    (step : ∀ m s, Met P m → Q m → Q (m.step s))
    (next : ∀ m task, Met P m → Q m → P task → Q (m.memory.start task)) : Q a := by
  obtain ⟨task, ht, h⟩ := h
  induction h with
  | refl => exact start task ht
  | step s h ih => exact step _ s ⟨task, ht, h⟩ ih
  | next h ht' ih => exact next _ _ ⟨task, ht, h⟩ ih ht'

theorem Later.lastsIn (h : Later P a b) : a.heap.LastsIn b.heap := by
  induction h with
  | refl => exact .refl _
  | step s _ ih => exact ih.trans (turn_step s _).lastsIn
  | next _ _ ih => exact ih

theorem later_run (s : Setting) (n : Nat) (m : Machine) : Later P m (m.run s n) := by
  induction n generalizing m with
  | zero => exact .refl
  | succ n ih =>
    rw [Machine.run]
    split
    · exact .refl
    · exact (Later.step s .refl).trans (ih _)

/-! ## Frames to go on in -/

/-- The frame in which a machine goes on, and those that it comes back to. -/
structure Around (Q : Nat → Prop) (m : Machine) : Prop where
  current : Q m.frame
  waiting : ∀ w ∈ m.stack.items, ∀ i ∈ w.outer?, Q i

variable {m m' : Machine} {Q : Nat → Prop}

theorem Around.mono {Q' : Nat → Prop} (h : m.Around Q) (hQ : ∀ i, Q i → Q' i) : m.Around Q' :=
  ⟨hQ _ h.current, fun w hw i hi => hQ i (h.waiting w hw i hi)⟩

theorem Around.homeFrame (h : m.Around Q) : Q m.homeFrame := by
  have hfold (ws : List Waiting) (i : Nat) (hws : ∀ w ∈ ws, ∀ i ∈ w.outer?, Q i) (hi : Q i) :
      Q (ws.foldl Waiting.frameAfter i) := by
    induction ws generalizing i with
    | nil => exact hi
    | cons w ws ih =>
      obtain ⟨hw, hws⟩ := List.forall_mem_cons.1 hws
      exact ih _ hws (Waiting.frameAfter_of hw hi)
  exact hfold _ _ h.waiting h.current

theorem Around.start (mem : Memory) (h : Q mem.frame) (task : Control) :
    (mem.start task).Around Q :=
  ⟨h, List.forall_mem_nil _⟩

theorem Around.leaving (h : m.Around Q) (hpop : m.stack.pop? = some (w, rest)) :
    ({ m with stack := rest }.leaving w).Around Q := by
  have hws := h.waiting
  rw [Stack.items_of_pop? hpop] at hws
  obtain ⟨hw, hrest⟩ := List.forall_mem_cons.1 hws
  exact ⟨Waiting.frameAfter_of hw h.current, hrest⟩

theorem Around.continues (h : m.Around Q) (hm : m.Continues m') (hframe : Q m'.frame) :
    m'.Around Q := by
  refine ⟨hframe, ?_⟩
  cases hm with
  | same hs hf =>
    rw [hs]
    exact h.waiting
  | waiting w hs hf =>
    rw [hs]
    refine List.forall_mem_cons.2 ⟨fun i hi => ?_, h.waiting⟩
    -- The construct that waits now leads back to the frame that was current.
    rw [Waiting.frameAfter_eq, hi, Option.getD_some] at hf
    exact hf ▸ h.current

theorem size_enclose (h : Heap) (outer : Nat) (bs : Bindings Value) :
    (h.enclose outer bs).2.frames.all.size = h.frames.all.size + 1 := Array.size_push _

/-- Where a step goes on: in the same frame, in the one that leads back, or in a new one. -/
theorem Turn.frame (ht : Turn m es h i) :
    i = m.frame ∨ (∃ w rest, m.stack.pop? = some (w, rest) ∧ i = w.frameAfter m.frame) ∨
      m.size ≤ i ∧ i < h.frames.all.size := by
  cases ht with
  | quiet hi => exact hi.imp_right .inl
  | block hi =>
    refine hi.imp_right fun e => .inr ⟨Nat.le_of_eq e.symm, ?_⟩
    rw [size_enclose, e]
    exact Nat.lt_succ_self _
  | calls _ _ _ hi =>
    refine hi.imp_right fun e => .inr ⟨Nat.le_of_eq e.symm, ?_⟩
    rw [size_enclose, e]
    exact Nat.lt_succ_self _
  | constructs _ _ _ _ hi =>
    refine hi.imp_right fun e => .inr ⟨by omega, ?_⟩
    rw [size_enclose, Heap.encloseReceiver, size_enclose, e]
    exact Nat.lt_succ_self _
  | _ => exact .inl rfl

theorem Around.step_of_frame (h : m.Around Q) (s : Setting) (hframe : Q (m.step s).frame) :
    (m.step s).Around Q := by
  obtain hm | ⟨w, rest, -, hpop, hm⟩ := m.step_continues s
  · exact h.continues hm hframe
  · exact (h.leaving hpop).continues hm hframe

/-- A machine goes on in the frames that it was in, and in new ones. -/
theorem Around.step (h : m.Around Q) (s : Setting)
    (hnew : ∀ i, m.size ≤ i → i < (m.step s).size → Q i) : (m.step s).Around Q := by
  refine h.step_of_frame s ?_
  obtain hf | ⟨w, rest, hpop, hf⟩ | ⟨hge, hlt⟩ := (turn_step s m).frame
  · exact hf ▸ h.current
  · exact hf ▸ (h.leaving hpop).current
  · exact hnew _ hge hlt

theorem size_le_step (s : Setting) (m : Machine) : m.size ≤ (m.step s).size :=
  (turn_step s m).lastsIn.size_le

/-! ## New closures -/

/-- The function of a closure that the next step makes: one that is declared, a method of a class
that is declared, or a method that is bound. -/
inductive Supplies (m : Machine) (f : Function) : Prop where
  | statement : m.control = .exec (.function f) → Supplies m f
  | method : m.Declares name superclass methods → f ∈ methods → Supplies m f
  | bound {k : Nat} {c : Closure} : m.heap.closures[k]? = some c → c.declaration = f → Supplies m f

theorem closure_addMethods {home k : Nat} {c : Closure}
    (hc : (addMethods home fs methods h).2.closures[k]? = some c) :
    h.closures[k]? = some c ∨ c.declaration ∈ fs ∧ c.frame = home := by
  induction fs generalizing methods h with
  | nil => exact .inl hc
  | cons f fs ih =>
    rcases ih hc with hold | ⟨hf, hframe⟩
    · rcases of_getElem?_push hold with hold | ⟨-, rfl⟩
      · exact .inl hold
      · exact .inr ⟨List.mem_cons_self, rfl⟩
    · exact .inr ⟨List.mem_cons_of_mem _ hf, hframe⟩

theorem size_declareClass (name : Token) (superclass : Option Nat) (methods : List Function)
    (m : Machine) :
    (m.declareClass name superclass methods).heap.frames.all.size =
      m.size + if superclass.isSome then 1 else 0 := by
  cases superclass <;> simp only [declareClass] <;> split <;>
    simp [Heap.define, Frames.define, Heap.addClass, frames_addMethods, Heap.enclose, Frames.make,
      size]

theorem methodFrame_declareClass (name : Token) (superclass : Option Nat)
    (methods : List Function) (m : Machine) :
    m.methodFrame superclass = m.frame ∨ m.size ≤ m.methodFrame superclass ∧
      m.methodFrame superclass < (m.declareClass name superclass methods).heap.frames.all.size := by
  cases superclass with
  | none => exact .inl rfl
  | some p =>
    rw [size_declareClass]
    exact .inr ⟨Nat.le_refl _, Nat.lt_succ_self _⟩

/-- What a new closure is: its function is supplied by the program, and its frame is the current one
or new. -/
theorem Turn.closure {c : Closure} {k : Nat} (ht : Turn m es h i) (hc : h.closures[k]? = some c) :
    m.heap.closures[k]? = some c ∨ m.Supplies c.declaration ∧
      (c.frame = m.frame ∨ m.size ≤ c.frame ∧ c.frame < h.frames.all.size) := by
  cases ht with
  | function hf =>
    rcases of_getElem?_push hc with hold | ⟨-, rfl⟩
    · exact .inl hold
    · exact .inr ⟨.statement hf, .inl rfl⟩
  | @declares name superclass methods hd =>
    obtain ⟨heap, hold, hclosures, -⟩ := heap_declareClass name superclass methods m
    rw [hclosures] at hc
    rcases closure_addMethods hc with hc | ⟨hf, hframe⟩
    · exact .inl (hold ▸ hc)
    · rw [hframe]
      exact .inr ⟨.method hd hf, methodFrame_declareClass ..⟩
  | binds _ hb =>
    rcases of_getElem?_push hc with hold | ⟨-, rfl⟩
    · exact .inl hold
    · refine .inr ⟨.bound hb rfl, .inr ⟨Nat.le_refl _, ?_⟩⟩
      exact Nat.lt_of_lt_of_eq (Nat.lt_succ_self _) (size_enclose ..).symm
  | _ => exact .inl hc

/-! ## Frames in range -/

/-- Whatever a machine goes on in has been made. -/
structure InRange (m : Machine) : Prop where
  around : m.Around (· < m.size)
  closures {k : Nat} {c : Closure} : m.heap.closures[k]? = some c → c.frame < m.size
  methods {k : Nat} : m.heap.HasMethod k → ∃ c, m.heap.closures[k]? = some c

theorem InRange.step (h : m.InRange) (s : Setting) : (m.step s).InRange where
  around := (h.around.mono fun _ hi => Nat.lt_of_lt_of_le hi (size_le_step s m)).step s
    fun _ _ hi => hi
  closures hc := by
    have hle := size_le_step s m
    rcases (turn_step s m).closure hc with hold | ⟨-, hframe | ⟨-, hlt⟩⟩
    · exact Nat.lt_of_lt_of_le (h.closures hold) hle
    · exact hframe ▸ Nat.lt_of_lt_of_le h.around.current hle
    · exact hlt
  methods hk := by
    obtain ⟨hkept, hmethods⟩ := hasMethod_step s m
    rcases hmethods _ hk with hold | ⟨_, _, _, _, -, f, -, b, hc⟩
    · obtain ⟨c, hc⟩ := h.methods hold
      exact ⟨c, hkept hc⟩
    · exact ⟨_, hc⟩

theorem Met.inRange (h : Met P m) : m.InRange := by
  refine h.induct (fun task _ => ?_) (fun m s _ hm => hm.step s) fun m task _ hm _ => ?_
  · refine ⟨.start .initial Nat.zero_lt_one task, nofun, ?_⟩
    rintro k ⟨i, c, x, hc, -⟩
    cases hc
  · exact ⟨.start m.memory hm.around.homeFrame task, hm.closures, hm.methods⟩

/-! ## Frames made by binding -/

/-- The next step binds the method of a closure to a receiver, in a frame that it makes. -/
def BindsMethod (m : Machine) (c : Closure) (v : Value) : Prop :=
  Event.binding m.size c v <+: m.events

/-- What binding a method leaves: the receiver in a new frame inside that of the method, in which
nothing goes on, and the classes as they were. -/
theorem Turn.of_binding (ht : Turn m es h i) (hb : Event.binding m.size c v <+: es)
    (hm : m.frame < m.size) :
    h.frames.frame? m.size = some ⟨some c.frame, [("this", v)]⟩ ∧ i ≠ m.size ∧
      h.classes = m.heap.classes := by
  obtain ⟨rest, hrest⟩ := hb
  have hfirst (h : Heap) (c' : Closure) (v' : Value) (hc : c'.frame = c.frame) (hv : v' = v) :
      (h.encloseReceiver c' v').2.frames.frame? h.frames.all.size =
        some ⟨some c.frame, [("this", v)]⟩ := by
    subst hv
    rw [← hc]
    exact Frames.frame?_make_self ..
  cases ht with
  | @binds k v' c' =>
    simp only [Event.binding, List.cons_append, List.cons.injEq, Event.made.injEq,
      Region.receiver.injEq, Event.stored.injEq, Storing.mk.injEq] at hrest
    exact ⟨hfirst _ _ _ hrest.1.1.symm hrest.2.1.2.2.1.symm, Nat.ne_of_lt hm, rfl⟩
  | @constructs _ _ k c' as _ _ _ _ hi =>
    simp only [Event.binding, List.cons_append, List.cons.injEq, Event.made.injEq,
      Region.receiver.injEq, Event.stored.injEq, Storing.mk.injEq] at hrest
    refine ⟨?_, by omega, rfl⟩
    refine (Frames.frame?_make_of_lt ?_ ..).trans
      (hfirst _ _ _ hrest.1.1.symm hrest.2.1.2.2.1.symm)
    exact Nat.lt_of_lt_of_eq (Nat.lt_succ_self _) (size_enclose ..).symm
  | _ => simp [Event.binding, Event.calling, Event.declare, declareClassEvents] at hrest

/-- A frame in which nothing goes on and no method stands. -/
structure Clear (j : Nat) (m : Machine) : Prop where
  lt : j < m.size
  around : m.Around (· ≠ j)
  methods {k : Nat} {c : Closure} :
    m.heap.HasMethod k → m.heap.closures[k]? = some c → c.frame ≠ j

theorem Clear.step (h : m.Clear j) (s : Setting) : (m.step s).Clear j where
  lt := Nat.lt_of_lt_of_le h.lt (size_le_step s m)
  around := h.around.step s fun _ hi _ => Nat.ne_of_gt (Nat.lt_of_lt_of_le h.lt hi)
  methods hk hc := by
    rcases (turn_step s m).closure hc with hold | ⟨-, hframe | ⟨hge, -⟩⟩
    · rcases (hasMethod_step s m).2 _ hk with hk | ⟨_, superclass, _, _, -, f, -, b, hc'⟩
      · exact h.methods hk hold
      · cases hc.symm.trans hc'
        cases superclass with
        | none => exact h.around.current
        | some p => exact Nat.ne_of_gt h.lt
    · exact hframe ▸ h.around.current
    · exact Nat.ne_of_gt (Nat.lt_of_lt_of_le h.lt hge)

theorem InRange.clear (h : m.InRange) (hb : m.BindsMethod c v) (s : Setting) :
    (m.step s).Clear m.size := by
  obtain ⟨hframe, hi, hclasses⟩ := (turn_step s m).of_binding hb h.around.current
  refine ⟨Frames.lt_of_frame? hframe, ?_, fun hk hc => ?_⟩
  · exact (h.around.mono fun _ => Nat.ne_of_lt).step_of_frame s hi
  · obtain ⟨i, cls, x, hcls, hx⟩ := hk
    rw [hclasses] at hcls
    obtain ⟨c', hc'⟩ := h.methods ⟨i, cls, x, hcls, hx⟩
    cases hc.symm.trans ((turn_step s m).lastsIn.closures hc')
    exact Nat.ne_of_lt (h.closures hc')

/-- Nothing goes on in a frame that is there already and that nothing goes on in now. -/
theorem Later.aside (h : Later P a b) (hlt : j < a.size) (ha : a.Around (· ≠ j)) :
    j < b.size ∧ b.Around (· ≠ j) := by
  induction h with
  | refl => exact ⟨hlt, ha⟩
  | @step m s _ ih =>
    refine ⟨Nat.lt_of_lt_of_le ih.1 (size_le_step s m), ih.2.step s fun _ hi _ => ?_⟩
    exact Nat.ne_of_gt (Nat.lt_of_lt_of_le ih.1 hi)
  | next _ _ ih => exact ⟨ih.1, .start _ ih.2.homeFrame _⟩

theorem Later.clear (h : Later P a b) (ha : a.Clear j) : b.Clear j := by
  induction h with
  | refl => exact ha
  | step s _ ih => exact ih.step s
  | @next m task _ _ ih =>
    exact ⟨ih.lt, .start m.memory ih.around.homeFrame task, ih.methods⟩

/-! ## Classes and their statements -/

/-- The next step executes the class statement that a class comes from. The methods of the class are
functions of the statement, all over the frame that the statement is executed in, or over one made
directly inside it that binds `super`. -/
structure Introduces (a : Machine) (h : Heap) (i : Nat) (c : Class) (methods : List Function) :
    Prop where
  statement : ∃ name, a.Declares name c.superclass methods ∧ c.name = name.lexeme
  number : a.heap.classes.size = i
  methods {x : String} {k : Nat} : c.methods.get? x = some k → ∃ f ∈ methods, f.name.lexeme = x ∧
    h.closures[k]? = some ⟨f, a.methodFrame c.superclass, x = Heap.initName⟩
  home : a.methodFrame c.superclass = a.frame ∨
    ∃ bs, h.frames.frame? (a.methodFrame c.superclass) = some ⟨some a.frame, bs⟩ ∧
      bs.contains "super"

theorem Introduces.lasts (hi : a.Introduces h i c ms) (hl : h.LastsIn h') :
    a.Introduces h' i c ms where
  statement := hi.statement
  number := hi.number
  methods hk := by
    obtain ⟨f, hf, hx, hc⟩ := hi.methods hk
    exact ⟨f, hf, hx, hl.closures hc⟩
  home := hi.home.imp_right fun ⟨bs, hframe, hbs⟩ => by
    obtain ⟨bs', hframe', hgain⟩ := hl.frames hframe
    exact ⟨bs', hframe', hgain _ hbs⟩

theorem superFrame_declareClass (hm : m.frame < m.size) (name : Token) (superclass : Nat)
    (methods : List Function) :
    (m.declareClass name (some superclass) methods).heap.frames.frame? m.size =
      some ⟨some m.frame, [("super", .cls superclass)]⟩ := by
  have hsize : (m.heap.frames.define m.frame name.lexeme .nil).all.size = m.size :=
    Array.size_modify
  have hmake := Frames.frame?_make_self (m.heap.frames.define m.frame name.lexeme .nil)
    (some m.frame) [("super", .cls superclass)]
  rw [declareClass_eq hm]
  simp only [Heap.addClass, Heap.define, Heap.enclose, frames_addMethods]
  rw [Frames.frame?_define, if_neg (Nat.ne_of_lt hm), ← hsize]
  exact hmake

theorem introduces_declareClass (hm : m.frame < m.size) (hd : m.Declares name superclass methods)
    {c : Class} (hc : (m.declareClass name superclass methods).heap.classes[i]? = some c) :
    m.heap.classes[i]? = some c ∨
      m.Introduces (m.declareClass name superclass methods).heap i c methods := by
  obtain ⟨h, -, hclosures, hclasses⟩ := heap_declareClass name superclass methods m
  rw [hclasses] at hc
  refine (of_getElem?_push hc).imp_right ?_
  rintro ⟨rfl, rfl⟩
  refine ⟨⟨name, hd, rfl⟩, rfl, fun hk => ?_, ?_⟩
  · rw [hclosures]
    exact (((closures_addMethods _ methods [] h).2 _ _ hk).resolve_left nofun).2
  · cases superclass with
    | none => exact .inl rfl
    | some p => exact .inr ⟨_, superFrame_declareClass hm name p methods, rfl⟩

theorem Turn.class {c : Class} (ht : Turn m es h i) (hm : m.frame < m.size)
    (hc : h.classes[j]? = some c) :
    m.heap.classes[j]? = some c ∨ ∃ methods, m.Introduces h j c methods := by
  cases ht with
  | declares hd => exact (introduces_declareClass hm hd hc).imp_right fun h => ⟨_, h⟩
  | _ => exact .inl hc

/-- Every class comes from a class statement that was executed earlier in the session. -/
theorem Met.introduced {c : Class} (h : Met P b) (hc : b.heap.classes[i]? = some c) :
    ∃ a methods s, Met P a ∧ (a.step s).Later P b ∧ a.Introduces b.heap i c methods := by
  revert i c
  refine h.induct (Q := fun b => ∀ {i : Nat} {c : Class}, b.heap.classes[i]? = some c →
    ∃ a methods s, Met P a ∧ (a.step s).Later P b ∧ a.Introduces b.heap i c methods)
    (fun task _ => nofun) (fun m s hm ih i c hc => ?_) fun m task hm ih ht i c hc => ?_
  · rcases (turn_step s m).class hm.inRange.around.current hc with hold | ⟨methods, hnew⟩
    · obtain ⟨a, methods, s', ha, hlater, hintro⟩ := ih hold
      exact ⟨a, methods, s', ha, .step s hlater, hintro.lasts (turn_step s m).lastsIn⟩
    · exact ⟨m, methods, s, hm, .refl, hnew⟩
  · obtain ⟨a, methods, s', ha, hlater, hintro⟩ := ih hc
    exact ⟨a, methods, s', ha, .next hlater ht, hintro⟩

end Machine

end LoxLang
