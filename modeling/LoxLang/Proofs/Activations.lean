import LoxLang.Proofs.Chains

/-!
# Activations

Every time a scope is entered, by a block, by a call, for the `this` of a bound method or for the
`super` of a class, there is one more activation of it. A trail (`Trail`) says which activations
surround the task in hand, each construct that waits, and the place where each closure was made. It
is kept beside the machine by rules of scope alone (`Trail.next`): the body of a block is in a new
activation and otherwise where the block is; the body of a closure is in a new activation and
otherwise where the closure was made, not where it is called; and what has waited goes on where it
waits. None of these rules asks which frame is current or which frame a closure has.

`Trail.Agrees.step` proves that the frames of the machine follow the trail: from the current frame
the links lead through the activations around, in order, and then to the globals.
-/

namespace LoxLang

/-! ## Links that last -/

theorem Chain.mono {link link' : Nat → Option (Option Nat)} (h : Chain link i l)
    (hlink : ∀ j o, link j = some o → link' j = some o) : Chain link' i l := by
  induction h with
  | last hi => exact .last (hlink _ _ hi)
  | cons hi _ ih => exact .cons (hlink _ _ hi) ih

theorem Chain.head? {link : Nat → Option (Option Nat)} (h : Chain link i l) :
    l.head? = some i := by
  cases h <;> rfl

namespace Heap

/-- The frames from one to that of the globals are those of a place, innermost first. -/
def Path (h : Heap) (i : Nat) (place : List Nat) : Prop :=
  Chain h.frames.enclosing? i (place ++ [globals])

theorem LastsIn.enclosing {h h' : Heap} (hl : h.LastsIn h')
    (hi : h.frames.enclosing? i = some outer) : h'.frames.enclosing? i = some outer := by
  obtain ⟨⟨_, bs⟩, hf, rfl⟩ := Option.map_eq_some_iff.1 hi
  obtain ⟨bs', hf', -⟩ := hl.frames hf
  exact Option.map_eq_some_iff.2 ⟨_, hf', rfl⟩

theorem LastsIn.closures_size_le {h h' : Heap} (hl : h.LastsIn h') :
    h.closures.size ≤ h'.closures.size := by
  rcases Nat.eq_zero_or_pos h.closures.size with hzero | hpos
  · exact hzero ▸ Nat.zero_le _
  · have hlast := hl.closures (Array.getElem?_eq_getElem (Nat.sub_one_lt_of_lt hpos))
    have := (Array.getElem?_eq_some_iff.1 hlast).1
    omega

namespace Path

variable {h h' : Heap} {i : Nat} {place : List Nat}

theorem lasts (hp : h.Path i place) (hl : h.LastsIn h') : h'.Path i place :=
  hp.mono fun _ _ => hl.enclosing

theorem unique (hp : h.Path i place) (hp' : h.Path i place') : place = place' :=
  List.append_cancel_right (Chain.unique hp hp')

theorem globals (hf : h.frames.enclosing? Heap.globals = some none) : h.Path Heap.globals [] :=
  .last hf

/-- A frame inside another is one more activation. -/
theorem inside (hf : h.frames.frame? j = some ⟨some i, bs⟩) (hp : h.Path i place) :
    h.Path j (j :: place) :=
  .cons (Option.map_eq_some_iff.2 ⟨_, hf, rfl⟩) hp

theorem enclose (hp : h.Path i place) (bs : Bindings Value) :
    (h.enclose i bs).2.Path h.frames.all.size (h.frames.all.size :: place) :=
  inside (Frames.frame?_make_self ..) (hp.lasts (.enclose ..))

/-- Inside of an activation the current frame is that of the innermost one. -/
theorem head? (hp : h.Path i place) (hne : i ≠ Heap.globals) : place.head? = some i := by
  have hhead := Chain.head? hp
  cases place with
  | nil => exact absurd (Option.some.inj hhead).symm hne
  | cons j rest => exact hhead

theorem frameAt (hp : h.Path i place) (hd : place[d]? = some j) :
    h.frames.frameAt i d = .ok j := by
  rw [Frames.frameAt_of_chain hp,
    List.getElem?_append_left (List.getElem?_eq_some_iff.1 hd).1, hd]
  rfl

/-- A number of links leads to the activation that is so many out, or else to the globals. -/
theorem link (hp : h.Path i place) (hj : h.frames.frameAt i d = .ok j) :
    (place ++ [Heap.globals])[d]? = some j := by
  rw [Frames.frameAt_of_chain hp] at hj
  cases hlink : (place ++ [Heap.globals])[d]? with
  | none =>
    rw [hlink] at hj
    cases hj
  | some j' =>
    rw [hlink] at hj
    exact congrArg some (Except.ok.inj hj)

theorem getElem?_of_frameAt (hp : h.Path i place) (hj : h.frames.frameAt i d = .ok j)
    (hne : j ≠ Heap.globals) : place[d]? = some j := by
  have hlink := hp.link hj
  rcases Nat.lt_or_ge d place.length with hlt | hge
  · rwa [List.getElem?_append_left hlt] at hlink
  · rw [List.getElem?_append_right hge] at hlink
    exact absurd (List.mem_singleton.1 (List.mem_of_getElem? hlink)) hne

end Path

end Heap

/-! ## Trails -/

/-- The activations around the task in hand, around each construct that waits, and around the place
where each closure was made; the innermost first, and each known by the number of its frame. -/
structure Trail where
  here : List Nat := []
  waiting : List (List Nat) := []
  homes : List (List Nat) := []
deriving DecidableEq

namespace Trail

/-- Where the next step takes place: what has waited for the task in hand goes on where it waits. -/
def resume (t : Trail) (m : Machine) : Trail :=
  match m.control.isDone, t.waiting with
  | true, place :: rest => { t with here := place, waiting := rest }
  | _, _ => t

/-- The activations around the body that the next step enters, if it is one of a block or a call.
The initializer of a new instance has an activation for `this` around it. -/
def opened? (t : Trail) (m : Machine) : Option (List Nat) :=
  match m.control, m.callee? with
  | .exec (.block _), _ => some (m.size :: t.here)
  | _, some (.closure k) => t.homes[k]?.map (m.size :: ·)
  | _, some (.cls c) =>
    (m.heap.method? c Heap.initName).bind fun k =>
      t.homes[k]?.map fun home => (m.size + 1) :: m.size :: home
  | _, _ => none

/-- The method that the next step binds, if it is to bind one. What `super` stands for is kept in
the activation that is so many out. -/
def selection? (t : Trail) (m : Machine) : Option Nat :=
  match m.control, m.stack.items with
  | .value (.object object), .get name :: _ =>
    m.heap.instances[object]?.bind fun o =>
      if o.fields.contains name.lexeme then none else m.heap.method? o.cls name.lexeme
  | .eval (.super keyword method), _ =>
    let holder := keyword.hops.bind fun d => (t.here ++ [Heap.globals])[d]?
    match holder.bind fun j => m.heap.frames.lookup? j "super" with
    | some (.cls c) => m.heap.method? c method.lexeme
    | _ => none
  | _, _ => none

/-- The activations around the closures that the next step makes. A bound method has an activation
for `this` around it and is otherwise where the method was made; the methods of a class with a
superclass have one for `super`. -/
def birthplace (t : Trail) (m : Machine) : List Nat :=
  match t.selection? m with
  | some k => m.size :: (t.homes[k]?).getD []
  | none =>
    match m.control, m.stack.items with
    | .value _, .superclass .. :: _ => m.size :: t.here
    | _, _ => t.here

/-- The trail after a step from one machine to another: a construct that begins to wait waits where
the step takes place, and the task in hand is there as well, or in the body that is entered. -/
def next (t : Trail) (m m' : Machine) : Trail :=
  let r := t.resume m
  let entered := r.waiting.length < m'.stack.size
  let made := m'.heap.closures.size - m.heap.closures.size
  { here := if entered then (r.opened? m).getD r.here else r.here
    waiting := if entered then r.here :: r.waiting else r.waiting
    homes := r.homes ++ List.replicate made (r.birthplace m) }

/-- Between two runs nothing surrounds and nothing waits. -/
def outside (t : Trail) : Trail := { homes := t.homes }

/-- The frames that leaving what waits brings back are those of the places where it waits. -/
inductive Returns (h : Heap) : Nat → List Waiting → List (List Nat) → Prop where
  | nil : Returns h i [] []
  | cons : h.Path (w.frameAfter i) place → Returns h (w.frameAfter i) ws places →
    Returns h i (w :: ws) (place :: places)

theorem Returns.lasts (hr : Returns h i ws places) (hl : h.LastsIn h') :
    Returns h' i ws places := by
  induction hr with
  | nil => exact .nil
  | cons hp _ ih => exact .cons (hp.lasts hl) ih

theorem Returns.length_eq (hr : Returns h i ws places) : places.length = ws.length := by
  induction hr with
  | nil => rfl
  | cons _ _ ih => exact congrArg (· + 1) ih

/-- The frames that a machine goes on in, and comes back to, are those of the places of a trail. -/
structure Follows (t : Trail) (m : Machine) : Prop where
  here : m.heap.Path m.frame t.here
  waiting : Returns m.heap m.frame m.stack.items t.waiting

/-- The frames of a machine and of its closures are those of the places of a trail. -/
structure Agrees (t : Trail) (m : Machine) : Prop extends Follows t m where
  count : t.homes.length = m.heap.closures.size
  homes {k : Nat} {c : Closure} : m.heap.closures[k]? = some c →
    ∃ home, t.homes[k]? = some home ∧ m.heap.Path c.frame home

end Trail

/-! ## Calls -/

namespace Machine

variable {m : Machine}

theorem calls_of_callee? (h : m.callee? = some v) : ∃ as, m.Calls v as := by
  unfold Machine.callee? at h
  split at h
  · next hc hs => cases h; exact ⟨_, .plain hc hs⟩
  · next hc hs => cases h; exact ⟨_, .withArguments hc hs⟩
  · cases h

/-- What a call leaves that goes on in a new frame, with the number of this frame. -/
inductive Opens (m : Machine) : Value → Heap → Nat → Prop where
  | closure {k : Nat} {c : Closure} : m.heap.closures[k]? = some c →
    Opens m (.closure k) (m.heap.enclose c.frame bs).2 m.size
  | class {cls k object : Nat} {c : Closure} : m.heap.method? cls Heap.initName = some k →
    m.heap.closures[k]? = some c →
    Opens m (.cls cls)
      (((m.heap.addInstance cls).2.encloseReceiver c (.object object)).2.enclose m.size bs).2
      (m.size + 1)

/-- A machine after a call: the call is over at once or fails, or its body is in hand. -/
inductive Called (m : Machine) (v : Value) (m' : Machine) : Prop where
  | ended (hs : m'.stack = m.stack) (hf : m'.frame = m.frame)
  | entered (hs : m'.stack = m.stack.push (.activation m.frame result))
    (ho : m.Opens v m'.heap m'.frame)

theorem called_invoke {h : Heap} {c : Closure} (s : Setting) (arguments : List Value)
    (result : CallResult) (callToken : Option Token) (hi : h.frames.all.size = i)
    (ho : m.Opens v
      (h.enclose c.frame (bindParameters c.declaration.parameters arguments [])).2 i) :
    m.Called v ({ m with heap := h, callToken }.invoke s c arguments result) := by
  subst hi
  simp only [invoke, enter]
  split
  · exact .ended rfl rfl
  · exact .entered rfl ho

theorem called_instantiate (s : Setting) (cls : Nat) (arguments : List Value)
    (callToken : Option Token) :
    m.Called (.cls cls) ({ m with callToken }.instantiate s cls arguments) := by
  unfold instantiate
  split
  · exact .ended rfl rfl
  · next hk =>
    split
    · exact .ended rfl rfl
    · next hc =>
      exact called_invoke s arguments _ _ (size_enclose ..) (.class hk hc)

theorem called_call (s : Setting) (callee : Value) (paren : Token) (arguments : List Value) :
    m.Called callee (m.call s callee paren arguments) := by
  unfold call
  split
  · exact .ended rfl rfl
  · split
    · unfold callValue
      split
      · exact .ended rfl rfl
      · split
        · exact .ended rfl rfl
        · next hc => exact called_invoke s arguments _ _ rfl (.closure hc)
      · exact called_instantiate s _ arguments _
      · exact .ended rfl rfl
    · exact .ended rfl rfl

theorem heap_back (m : Machine) : m.back.heap = m.heap := by
  unfold back
  split <;> rfl

theorem back_of_live (h : m.control.isDone = false) : m.back = m := by
  unfold back
  rw [h]

theorem frame_back (hi : m.stack.items = w :: items) (hw : ∀ i, w.frameAfter i = i) :
    m.back.frame = m.frame := by
  unfold back
  split
  · next hpop =>
    obtain ⟨rfl, -⟩ := List.cons.inj (hi.symm.trans (Stack.items_of_pop? hpop))
    exact hw _
  · rfl

/-- A call takes place in the frame at hand. -/
theorem Calls.step_back (h : m.Calls v as) (s : Setting) :
    ∃ paren, m.step s = m.back.call s v paren as := by
  obtain ⟨control, ⟨items, n, rfl⟩, frame, heap, printed, callToken⟩ := m
  cases h with
  | plain hcontrol hi | withArguments hcontrol hi =>
    cases hcontrol
    cases hi
    exact ⟨_, rfl⟩

end Machine

namespace Trail

variable {t : Trail} {m m' : Machine}

theorem resume_of_live (h : m.control.isDone = false) : t.resume m = t := by
  unfold resume
  rw [h]

@[simp] theorem homes_resume : (t.resume m).homes = t.homes := by
  unfold resume
  split <;> rfl

theorem homes_next : (t.next m m').homes = t.homes ++
    List.replicate (m'.heap.closures.size - m.heap.closures.size)
      ((t.resume m).birthplace m) := by
  simp only [next, homes_resume]

theorem next_of_same (hs : m'.stack.size = (t.resume m).waiting.length) :
    (t.next m m').here = (t.resume m).here ∧ (t.next m m').waiting = (t.resume m).waiting := by
  have hlt : ¬(t.resume m).waiting.length < m'.stack.size := by omega
  simp only [next, if_neg hlt, and_self]

theorem next_of_pushed (hs : m'.stack.size = (t.resume m).waiting.length + 1) :
    (t.next m m').here = ((t.resume m).opened? m).getD (t.resume m).here ∧
      (t.next m m').waiting = (t.resume m).here :: (t.resume m).waiting := by
  have hlt : (t.resume m).waiting.length < m'.stack.size := by omega
  simp only [next, if_pos hlt, and_self]

theorem opened?_closure (h : m.Calls (.closure k) as) :
    t.opened? m = t.homes[k]?.map (m.size :: ·) := by
  cases h with
  | plain hc hs | withArguments hc hs => simp only [opened?, Machine.callee?, hc, hs]

theorem opened?_class (h : m.Calls (.cls c) as) :
    t.opened? m = (m.heap.method? c Heap.initName).bind fun k =>
      t.homes[k]?.map fun home => (m.size + 1) :: m.size :: home := by
  cases h with
  | plain hc hs | withArguments hc hs => simp only [opened?, Machine.callee?, hc, hs]

/-! ## Steps -/

namespace Agrees

/-- A construct that is left goes on in the place where it has waited. -/
theorem resume (h : t.Agrees m) : (t.resume m).Agrees m.back := by
  obtain ⟨here, waiting, homes⟩ := t
  obtain ⟨⟨hhere, hwaiting⟩, hcount, hhomes⟩ := h
  unfold Trail.resume Machine.back
  cases m.control.isDone with
  | false => exact ⟨⟨hhere, hwaiting⟩, hcount, hhomes⟩
  | true =>
    dsimp only at hwaiting
    cases hpop : m.stack.pop? with
    | none =>
      have hempty := Stack.items_of_pop?_none hpop
      rw [hempty] at hwaiting
      cases hwaiting
      exact ⟨⟨hhere, hempty ▸ .nil⟩, hcount, hhomes⟩
    | some popped =>
      rw [Stack.items_of_pop? hpop] at hwaiting
      cases hwaiting with
      | cons hp hr => exact ⟨⟨hp, hr⟩, hcount, hhomes⟩

theorem size_back (h : t.Agrees m) : (t.resume m).waiting.length = m.back.stack.size := by
  rw [h.resume.waiting.length_eq, Stack.size_eq]

theorem follows_same (h : t.Agrees m) (hl : m.heap.LastsIn m'.heap)
    (hs : m'.stack.items = m.back.stack.items) (hf : m'.frame = m.back.frame) :
    Follows (t.next m m') m' := by
  have hback := h.resume
  have hsize : m'.stack.size = (t.resume m).waiting.length := by
    rw [h.size_back, ← m'.stack.size_eq, hs, Stack.size_eq]
  obtain ⟨hhere, hwaiting⟩ := next_of_same hsize
  rw [← m.heap_back] at hl
  constructor
  · rw [hhere, hf]
    exact hback.here.lasts hl
  · rw [hwaiting, hf, hs]
    exact hback.waiting.lasts hl

theorem follows_pushed (h : t.Agrees m) (hl : m.heap.LastsIn m'.heap)
    (hs : m'.stack.items = w :: m.back.stack.items) (hf : w.frameAfter m'.frame = m.back.frame)
    (hhere : m'.heap.Path m'.frame (((t.resume m).opened? m).getD (t.resume m).here)) :
    Follows (t.next m m') m' := by
  have hback := h.resume
  have hsize : m'.stack.size = (t.resume m).waiting.length + 1 := by
    rw [h.size_back, ← m'.stack.size_eq, hs, List.length_cons, Stack.size_eq]
  obtain ⟨hnext, hwaiting⟩ := next_of_pushed hsize
  rw [← m.heap_back] at hl
  constructor
  · rw [hnext]
    exact hhere
  · rw [hwaiting, hs]
    exact .cons (hf ▸ hback.here.lasts hl) (hf ▸ hback.waiting.lasts hl)

/-- A step that stays where it is. -/
theorem follows_stays (h : t.Agrees m) (hl : m.heap.LastsIn m'.heap) (hm : m.back.Stays m')
    (hopen : (t.resume m).opened? m = none) : Follows (t.next m m') m' := by
  cases hm with
  | same hs hf => exact h.follows_same hl hs hf
  | awaiting w hw hs hf =>
    refine h.follows_pushed hl hs ((hw _).trans hf) ?_
    rw [hopen, hf]
    rw [← m.heap_back] at hl
    exact h.resume.here.lasts hl

/-- The body of a block is in a new activation inside the place of the block. -/
theorem follows_block (h : t.Agrees m) (hc : m.control = .exec (.block body)) (s : Setting) :
    Follows (t.next m (m.step s)) (m.step s) := by
  have hl := (m.turn_step s).lastsIn
  have hback : m.back = m := m.back_of_live (by rw [hc]; rfl)
  have hresume : t.resume m = t := resume_of_live (by rw [hc]; rfl)
  have hstep : m.step s = { m with heap := (m.heap.enclose m.frame []).2 }.enter s
      (.leave m.frame) m.size (.run body) := by
    simp only [Machine.step, hc, Machine.execute]
    rfl
  rw [hstep] at hl ⊢
  unfold Machine.enter at hl ⊢
  split
  · exact h.follows_same (.enclose ..) (by rw [hback]; rfl) (by rw [hback]; rfl)
  · refine h.follows_pushed (.enclose ..) (by rw [hback]; rfl) (by rw [hback]; rfl) ?_
    have hopen : t.opened? m = some (m.size :: t.here) := by simp only [opened?, hc]
    rw [hresume, hopen]
    exact h.here.enclose []

/-- The body of a closure is in a new activation inside the place where the closure was made. -/
theorem opened?_of_opens (h : t.Agrees m) (hcalls : m.Calls v as) (ho : m.back.Opens v h' i) :
    ∃ place, (t.resume m).opened? m = some place ∧ h'.Path i place := by
  have hback := h.resume
  have hsize : m.size = m.back.heap.frames.all.size := by rw [m.heap_back, Machine.size]
  cases ho with
  | closure hc =>
    obtain ⟨home, hhome, hp⟩ := hback.homes hc
    refine ⟨m.size :: home, ?_, ?_⟩
    · rw [opened?_closure hcalls, hhome]
      rfl
    · rw [hsize]
      exact hp.enclose _
  | @«class» bs cls k object c hk hc =>
    obtain ⟨home, hhome, hp⟩ := hback.homes hc
    refine ⟨(m.size + 1) :: m.size :: home, ?_, ?_⟩
    · rw [m.heap_back] at hk
      rw [opened?_class hcalls, hk, Option.bind_some, hhome]
      rfl
    · have hreceiver := (hp.lasts (.addInstance _ cls)).enclose [("this", .object object)]
      have hbody := hreceiver.enclose bs
      rw [Machine.size_enclose] at hbody
      rw [hsize]
      exact hbody

theorem follows_calls (h : t.Agrees m) (hcalls : m.Calls v as) (s : Setting) :
    Follows (t.next m (m.step s)) (m.step s) := by
  have hl := (m.turn_step s).lastsIn
  obtain ⟨paren, hstep⟩ := hcalls.step_back s
  have hcalled := m.back.called_call s v paren as
  rw [← hstep] at hcalled
  cases hcalled with
  | ended hs hf => exact h.follows_same hl (by rw [hs]) hf
  | entered hs ho =>
    obtain ⟨place, hopen, hp⟩ := h.opened?_of_opens hcalls ho
    refine h.follows_pushed hl (by rw [hs]; rfl) rfl ?_
    rw [hopen]
    exact hp

theorem follows_step (h : t.Agrees m) (s : Setting) :
    Follows (t.next m (m.step s)) (m.step s) := by
  by_cases hblock : ∃ body, m.control = .exec (.block body)
  · obtain ⟨body, hc⟩ := hblock
    exact h.follows_block hc s
  · have hblock := not_exists.1 hblock
    cases hcallee : m.callee? with
    | some v =>
      obtain ⟨as, hcalls⟩ := Machine.calls_of_callee? hcallee
      exact h.follows_calls hcalls s
    | none =>
      refine h.follows_stays (m.turn_step s).lastsIn (m.step_stays s hblock hcallee) ?_
      unfold opened?
      rw [hcallee]
      split
      · next hc => exact absurd hc (hblock _)
      · next hnone _ => cases hnone
      · next hnone _ => cases hnone
      · rfl

/-! ## Closures -/

/-- The trail tells the method that is bound. -/
theorem selection? (h : t.Agrees m) (hs : m.Selects k v) :
    (t.resume m).selection? m = some k := by
  cases hs with
  | property hc hi ho hfield hk =>
    simp [Trail.selection?, hc, hi, ho, Bindings.contains, hfield, hk]
  | super hc hd hsuper _ hk =>
    obtain ⟨j, hj, hlookup⟩ := Frames.lookup?_of_getAt hsuper
    have hresume : t.resume m = t := resume_of_live (by rw [hc]; rfl)
    simp [Trail.selection?, hresume, hc, hd, h.here.link hj, hlookup, hk]

/-- A closure that a step makes is in the place that the trail gives it. -/
theorem born (h : t.Agrees m) (hm : m.InRange) (ht : m.Turn es h' i) {c : Closure} {k : Nat}
    (hc : h'.closures[k]? = some c) (hk : m.heap.closures.size ≤ k) :
    h'.Path c.frame ((t.resume m).birthplace m) := by
  have hl := ht.lastsIn
  have hold (hold : m.heap.closures[k]? = some c) : h'.Path c.frame ((t.resume m).birthplace m) :=
    absurd (Array.getElem?_eq_some_iff.1 hold).1 (Nat.not_lt_of_le hk)
  cases ht with
  | function hf =>
    rcases of_getElem?_push hc with hc | ⟨-, rfl⟩
    · exact hold hc
    · have hresume : t.resume m = t := resume_of_live (by rw [hf]; rfl)
      have hplace : t.birthplace m = t.here := by
        simp only [birthplace, Trail.selection?, hf]
      rw [hresume, hplace]
      exact h.here.lasts hl
  | @declares name superclass methods hd =>
    obtain ⟨heap, hheap, hclosures, -⟩ := Machine.heap_declareClass name superclass methods m
    rw [hclosures] at hc
    rcases Machine.closure_addMethods hc with hc | ⟨-, hframe⟩
    · exact hold (hheap ▸ hc)
    · rw [hframe]
      cases hd with
      | base hcontrol =>
        have hresume : t.resume m = t := resume_of_live (by rw [hcontrol]; rfl)
        have hplace : t.birthplace m = t.here := by
          simp only [birthplace, Trail.selection?, hcontrol]
        rw [hresume, hplace]
        exact h.here.lasts hl
      | @derived p _ parent _ items hcontrol hi =>
        -- The superclass has been waited for in the frame of the declaration.
        have hplace : (t.resume m).birthplace m = m.size :: (t.resume m).here := by
          simp only [birthplace, Trail.selection?, hcontrol, hi]
        have hhere := h.resume.here
        rw [m.heap_back, Machine.frame_back hi fun _ => rfl] at hhere
        rw [hplace]
        exact .inside (Machine.superFrame_declareClass hm.around.current name p methods)
          (hhere.lasts hl)
  | @binds k' v c' hs hc' =>
    rcases of_getElem?_push hc with hc | ⟨-, rfl⟩
    · exact hold hc
    · have hback := h.resume
      rw [← m.heap_back] at hc'
      obtain ⟨home, hhome, hp⟩ := hback.homes hc'
      have hplace : (t.resume m).birthplace m = m.size :: home := by
        simp only [birthplace, h.selection? hs, hhome, Option.getD_some]
      rw [hplace]
      rw [m.heap_back] at hp
      exact hp.enclose _
  | _ => exact hold hc

theorem homes_step (h : t.Agrees m) (hm : m.InRange) (s : Setting) {c : Closure} {k : Nat}
    (hc : (m.step s).heap.closures[k]? = some c) :
    ∃ home, (t.next m (m.step s)).homes[k]? = some home ∧ (m.step s).heap.Path c.frame home := by
  have hturn := m.turn_step s
  have hl := hturn.lastsIn
  have hk := (Array.getElem?_eq_some_iff.1 hc).1
  rw [homes_next]
  rcases Nat.lt_or_ge k m.heap.closures.size with hlt | hge
  · have hold := Array.getElem?_eq_getElem hlt
    obtain ⟨home, hhome, hp⟩ := h.homes hold
    cases (hl.closures hold).symm.trans hc
    rw [List.getElem?_append_left (h.count ▸ hlt)]
    exact ⟨home, hhome, hp.lasts hl⟩
  · refine ⟨_, ?_, h.born hm hturn hc hge⟩
    rw [List.getElem?_append_right (h.count ▸ hge), List.getElem?_replicate, if_pos]
    have := h.count
    omega

/-- The frames go on following the trail. -/
theorem step (h : t.Agrees m) (hm : m.InRange) (s : Setting) :
    (t.next m (m.step s)).Agrees (m.step s) where
  toFollows := h.follows_step s
  count := by
    have := (m.turn_step s).lastsIn.closures_size_le
    rw [homes_next, List.length_append, List.length_replicate, h.count]
    omega
  homes := h.homes_step hm s

/-- A run starts outside of all activations. -/
theorem start (h : t.Agrees m) (hf : m.heap.frames.enclosing? Heap.globals = some none)
    (hhome : m.homeFrame = Heap.globals) (task : Control) :
    t.outside.Agrees (m.memory.start task) where
  here := by
    show m.heap.Path m.homeFrame []
    rw [hhome]
    exact .globals hf
  waiting := .nil
  count := h.count
  homes := h.homes

end Agrees

theorem agrees_initial (task : Control) : ({} : Trail).Agrees (Memory.initial.start task) where
  here := .globals rfl
  waiting := .nil
  count := rfl
  homes := nofun

end Trail

end LoxLang
