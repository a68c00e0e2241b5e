import LoxLang.Proofs.InsideMethods
import LoxLang.Proofs.SharedVariables
import LoxLang.Proofs.Turns

/-!
# Stores under keywords

What is stored under `this` or `super` is stored once and for all: by the step that makes the frame,
and never again (`Event.Unique`). So whatever a frame binds a keyword to is what was stored there
when the frame was made (`Known.value`), and in every frame that was made for a receiver that is an
instance (`Known.receivers`). Both hold at every moment of a session (`Moment.known`).
-/

namespace LoxLang

/-- A machine with the record of all that happened to its frames. -/
structure Recorded (V : Node → Site → Prop) (log : List Event) (m : Machine) : Prop where
  sound : Sound V (.globals :: Event.regions log) m
  frames : m.heap.frames = Event.replay log Heap.initial.frames
  traced : AllTraced V (.globals :: Event.regions log) log

/-- A machine was met, and what its step does to frames is on record. -/
structure OnRecord (Met : Machine → List Event → Prop) (log : List Event) (m : Machine)
    (before : List Event) : Prop where
  met : Met m before
  recorded : before ++ m.events <+: log

/-- An execution of a class declaration, by the step of a machine. -/
structure Execution (Met : Machine → List Event → Prop) (log : List Event) (m : Machine)
    (name : Token) (superclass : Option Nat) (methods : List Function) : Prop where
  onRecord : ∃ before, OnRecord Met log m before
  declares : m.Declares name superclass methods

/-- No frame has two fixed stores. -/
def Event.Unique (es : List Event) : Prop :=
  ∀ e ∈ storings es, ∀ e' ∈ storings es, e.writer.isFixed → e'.writer.isFixed →
    e.frame = e'.frame → e = e'

/-- What is known of the stores under keywords: they are fixed, and every frame that was made for a
receiver has an instance. -/
structure Known (log : List Event) : Prop where
  unique : Event.Unique log
  receivers {j : Nat} {f : Function} :
    (Region.globals :: Event.regions log)[j]? = some (.receiver f) →
      ∃ object, .stored ⟨j, "this", .object object, .receiver⟩ ∈ log

/-! ## More events -/

namespace Event

/-- Fixed stores stay unique when there is at most one more, in a new frame. -/
theorem Unique.append (first : Storing) (h : Unique es)
    (hold : ∀ e ∈ storings es, e.writer.isFixed → e.frame < first.frame)
    (hnew : ∀ e ∈ storings es', e.writer.isFixed → e = first) : Unique (es ++ es') := by
  intro e he e' he' hfix hfix' hframe
  rw [storings_append, List.mem_append] at he he'
  rcases he with he | he <;> rcases he' with he' | he'
  · exact h e he e' he' hfix hfix' hframe
  · have := hold e he hfix
    rw [hframe, hnew e' he' hfix'] at this
    exact absurd this (Nat.lt_irrefl _)
  · have := hold e' he' hfix'
    rw [← hframe, hnew e he hfix] at this
    exact absurd this (Nat.lt_irrefl _)
  · rw [hnew e he hfix, hnew e' he' hfix']

end Event

theorem OnRecord.later (h : OnRecord Met log m before) (es : List Event) :
    OnRecord Met (log ++ es) m before :=
  ⟨h.met, h.recorded.trans (List.prefix_append ..)⟩

theorem OnRecord.mono (h : OnRecord Met log m before)
    (hmet : ∀ m before, Met m before → Met' m before) : OnRecord Met' log m before :=
  ⟨hmet _ _ h.met, h.recorded⟩

theorem Traced.lt_length (h : Traced V R e) (hf : e.writer.isFixed) : e.frame < R.length := by
  cases h with
  | receiver hi | superclass hi => exact (List.getElem?_eq_some_iff.1 hi).1
  | _ => cases hf

/-- What is stored under a keyword is stored for good. -/
theorem Traced.isFixed (h : Traced V R e) (hw : Walked V) (hx : ¬IsIdentifier e.name) :
    e.writer.isFixed := by
  cases h with
  | receiver | superclass => rfl
  | declaration _ _ hid => exact absurd hid hx
  | assignment hv | global hv =>
    have hwf := (hw.fits hv).wellFormed
    simp only [Node.WellFormed, Expr.WellFormed] at hwf
    exact absurd hwf.1.name hx

/-- Only in a frame with a receiver is anything stored under `this`. -/
theorem Traced.receiver_of_this (h : Traced V R e) (hw : Walked V) (hx : e.name = "this") :
    ∃ f, R[e.frame]? = some (.receiver f) := by
  have hfixed := h.isFixed hw (by rw [hx]; decide)
  cases h with
  | receiver hi => exact ⟨_, hi⟩
  | superclass => exact absurd (show "super" = "this" from hx) (by decide)
  | _ => cases hfixed

/-! ## Steps -/

variable {V : Node → Site → Prop} {log : List Event} {m : Machine}

/-- What a keyword is bound to in a frame was stored there. -/
theorem Recorded.stored_of_lookup? (hr : Recorded V log m)
    (hlookup : m.heap.frames.lookup? j x = some v) (hx : ¬IsIdentifier x) :
    ∃ s : Storing, .stored s ∈ log ∧ s.frame = j ∧ s.name = x ∧ s.value = v := by
  rw [hr.frames] at hlookup
  rcases Event.last_store hlookup with ⟨before, s, after, rfl, hs⟩ | ⟨-, hinit⟩
  · exact ⟨s, by simp, hs.1, hs.2.1, hs.2.2.1⟩
  · obtain ⟨rfl, -⟩ := Heap.clock_of_initial hinit
    exact absurd (by decide) hx

/-- What a keyword is bound to is what was stored for it. -/
theorem Known.value (hk : Known log) (hr : Recorded V log m) (hw : Walked V)
    (hlookup : m.heap.frames.lookup? e.frame x = some v) (hx : ¬IsIdentifier x)
    (he : .stored e ∈ log) (hfix : e.writer.isFixed) : v = e.value := by
  obtain ⟨s, hs, hsj, rfl, rfl⟩ := hr.stored_of_lookup? hlookup hx
  have hs := Event.mem_storings.2 hs
  have hfixed := (hr.traced s hs).isFixed hw hx
  rw [hk.unique s hs e (Event.mem_storings.2 he) hfixed hfix hsj]

namespace Machine

/-- A step makes at most one fixed store, in the first frame that it makes. -/
theorem Turn.fixed (ht : Turn m es h i) :
    ∃ first : Storing, first.frame = m.size ∧
      ∀ e ∈ Event.storings es, e.writer.isFixed → e = first := by
  have hcalling (n : Nat) (c : Closure) (as : List Value) :
      ∀ e ∈ Event.storings (Event.calling n c as), e.writer.isFixed = false := by
    intro e he
    obtain ⟨ev, hev, he⟩ := List.mem_filterMap.1 he
    rcases List.mem_cons.1 hev with rfl | hev
    · cases he
    · obtain ⟨⟨p, v⟩, -, rfl⟩ := List.mem_map.1 hev
      cases he
      rfl
  cases ht with
  | @binds k v c =>
    exact ⟨⟨m.size, "this", v, .receiver⟩, rfl, fun e he _ => List.mem_singleton.1 he⟩
  | constructs =>
    refine ⟨⟨m.size, "this", .object m.heap.instances.size, .receiver⟩, rfl, fun e he hf => ?_⟩
    rw [Event.storings_append] at he
    rcases List.mem_append.1 he with he | he
    · exact List.mem_singleton.1 he
    · rw [hcalling _ _ _ e he] at hf
      cases hf
  | calls =>
    refine ⟨⟨m.size, "this", .nil, .receiver⟩, rfl, fun e he hf => ?_⟩
    rw [hcalling _ _ _ e he] at hf
    cases hf
  | @declares name superclass methods =>
    refine ⟨⟨m.size, "super", (superclass.map Value.cls).getD .nil, .superclass⟩, rfl,
      fun e he hf => ?_⟩
    have he := Event.mem_storings.1 he
    simp only [declareClassEvents, Event.declare, List.mem_append, List.mem_singleton] at he
    rcases he with (he | he) | he
    · cases he; cases hf
    · cases superclass with
      | none => cases he
      | some c =>
        simp only [List.mem_cons, reduceCtorEq, Event.stored.injEq, List.not_mem_nil, or_false,
          false_or] at he
        exact he
    · cases he; cases hf
  | declare | assign | function =>
    refine ⟨⟨m.size, "this", .nil, .receiver⟩, rfl, fun e he hf => ?_⟩
    rw [List.mem_singleton.1 he] at hf
    cases hf
  | _ => exact ⟨⟨m.size, "this", .nil, .receiver⟩, rfl, List.forall_mem_nil _⟩

/-- A step that makes a frame with a receiver binds a method there. If the receiver is new, it is an
instance of the class that is called. -/
theorem Turn.receiver (ht : Turn m es h i) (hf : (Event.regions es)[n]? = some (.receiver f)) :
    n = 0 ∧ ∃ (k : Nat) (c : Closure) (v : Value), m.heap.closures[k]? = some c ∧
      c.declaration = f ∧ Event.binding m.size c v <+: es ∧
      (m.Selects k v ∨ ∃ cls as, m.Calls (.cls cls) as ∧
        m.heap.arity? (.cls cls) = some as.length ∧
        m.heap.method? cls Heap.initName = some k ∧ v = .object m.heap.instances.size ∧
        h.instances[m.heap.instances.size]? = some ⟨cls, []⟩) := by
  have hmem := List.mem_of_getElem? hf
  cases ht with
  | @binds k v c hs hc =>
    rw [Event.regions_binding] at hf
    cases n with
    | zero =>
      cases hf
      exact ⟨rfl, k, c, v, hc, rfl, List.prefix_rfl, .inl hs⟩
    | succ n => cases hf
  | @constructs _ cls k c as hcalls harity hk hc =>
    rw [Event.regions_append, Event.regions_binding, Event.regions_calling] at hf
    rcases n with _ | _ | n
    · cases hf
      exact ⟨rfl, k, c, _, hc, rfl, List.prefix_append ..,
        .inr ⟨cls, as, hcalls, harity, hk, rfl, Array.getElem?_push_size⟩⟩
    · cases hf
    · cases hf
  | @declares name superclass =>
    cases superclass <;> simp [declareClassEvents, Event.declare] at hmem
  | calls => simp [Event.regions_calling] at hmem
  | _ => simp [Event.declare] at hmem

end Machine

/-- Only `super` is resolved to `super`. -/
theorem Site.super_of_expr {σ : Site} {e : Expr} (h : σ.expr e = .super r x) :
    ∃ k, e = .super k x := by
  cases e with
  | super k y =>
    rw [Site.expr_super] at h
    cases h
    exact ⟨k, rfl⟩
  | missing => simp only [Site.expr, Expr.resolve, reduceCtorEq] at h
  | this k =>
    simp only [Site.expr, Expr.resolve] at h
    split at h <;> cases h
  | _ => simp at h

/-- `super` is evaluated in the frames of a method that has the scope of `super` around it. -/
theorem Sound.within_of_super {R : List Region} (hs : Sound (Visited roots) R m)
    (hw : Walked (Visited roots)) (hc : m.control = .eval (.super keyword method)) :
    ∃ σ f d name fs, At R m.heap m.frame σ ∧ σ.Within f d ∧ keyword.hops = some (d + 2) ∧
      σ.regions[d + 2]? = some (.superclass name fs) := by
  obtain ⟨-, hctl⟩ := hs
  rw [hc] at hctl
  generalize he : Expr.super keyword method = e at hctl
  cases hctl with
  | @eval e₀ σ _ _ hvisited ha =>
    obtain ⟨k, rfl⟩ := Site.super_of_expr he.symm
    obtain ⟨_, _, _, f, d, -, hinside⟩ := hvisited.exists_methodOf hw rfl
    obtain ⟨hexpr, -, name, fs, hregion⟩ := (hw.fits hvisited).expr_super hinside
    rw [hexpr] at he
    cases he
    exact ⟨σ, f, d, name, fs, ha, hinside.toWithin, rfl, hregion⟩

/-- Where `super` is evaluated, `this` is an instance. -/
theorem Known.this_object (hk : Known log) (hr : Recorded (Visited roots) log m)
    (hw : Walked (Visited roots)) (hc : m.control = .eval (.super keyword method))
    (hd : keyword.hops = some d) (hv : m.heap.frames.getAt m.frame (d - 1) "this" = .ok v) :
    ∃ object, v = .object object := by
  obtain ⟨σ, f, d', _, _, ha, hwithin, hhops, -⟩ := hr.sound.within_of_super hw hc
  cases hd.symm.trans hhops
  obtain ⟨j, hj, hρ⟩ := Mirrors.region ha hwithin.receiver
  obtain ⟨object, hstored⟩ := hk.receivers hρ
  obtain ⟨j', hj', hlookup⟩ := Frames.lookup?_of_getAt hv
  cases hj.symm.trans hj'
  exact ⟨object, hk.value hr hw hlookup (by decide) hstored rfl⟩

/-- What is known goes on being known. -/
theorem Known.step (hk : Known log) (hr : Recorded (Visited roots) log m)
    (hw : Walked (Visited roots)) (s : Setting) : Known (log ++ m.events) := by
  have hsize : (Region.globals :: Event.regions log).length = m.size := hr.sound.heap.size
  have hturn := m.turn_step s
  refine { unique := ?_, receivers := ?_ }
  · obtain ⟨first, hfirst, hnew⟩ := hturn.fixed
    refine hk.unique.append first (fun e he hf => ?_) hnew
    rw [hfirst, ← hsize]
    exact (hr.traced e he).lt_length hf
  · intro j f hj
    rw [Event.regions_append, ← List.cons_append] at hj
    rcases Nat.lt_or_ge j (Region.globals :: Event.regions log).length with hlt | hge
    · rw [List.getElem?_append_left hlt] at hj
      obtain ⟨object, hstored⟩ := hk.receivers hj
      exact ⟨object, List.mem_append_left _ hstored⟩
    · rw [List.getElem?_append_right hge] at hj
      obtain ⟨hfirst, k, c, v, -, -, hbinding, hattach⟩ := hturn.receiver hj
      obtain rfl : j = m.size := by omega
      obtain ⟨object, rfl⟩ : ∃ object, v = .object object := by
        rcases hattach with hs | ⟨_, _, -, -, -, hnew, -⟩
        · cases hs with
          | property => exact ⟨_, rfl⟩
          | super hc hd _ hv => exact hk.this_object hr hw hc hd hv
        · exact ⟨_, hnew⟩
      exact ⟨object, List.mem_append_right _ (hbinding.subset (by simp [Event.binding]))⟩

/-! ## Sessions -/

/-- A machine that is met in a session of some acts. -/
def MetIn (colored : Bool) (acts : List Act) (m : Machine) (log : List Event) : Prop :=
  ∃ earlier a, earlier ++ [a] <+: acts ∧ Moment colored earlier a m log

theorem MetIn.more (h : MetIn colored acts m log) (a : Act) :
    MetIn colored (acts ++ [a]) m log := by
  obtain ⟨earlier, b, hle, hmoment⟩ := h
  exact ⟨earlier, b, hle.trans (List.prefix_append ..), hmoment⟩

theorem Known.initial : Known [] where
  unique := List.forall_mem_nil _
  receivers {j f} hj := by
    cases j with
    | zero => cases hj
    | succ j => cases hj

namespace Moment

theorem recorded (h : Moment colored acts a m log) : Recorded (VisitedIn (acts ++ [a])) log m :=
  ⟨h.sound, h.frames, h.traced⟩

theorem isMetIn (h : Moment colored acts a m log) : MetIn colored (acts ++ [a]) m log :=
  ⟨acts, a, List.prefix_rfl, h⟩

/-- At every moment the stores under keywords are known. -/
theorem known (h : Moment colored acts a m log) : Known log := by
  have hq : Endures colored fun _ log _ => Known log := {
    initial := .initial
    more := id
    step := fun h hk s => hk.step h.recorded (walked_visitedIn _) s }
  exact hq.moment h

end Moment

end LoxLang
