import LoxLang.Proofs.BoundReceivers
import LoxLang.Proofs.HeldFunctions
import LoxLang.Proofs.ImmutableStructure

/-!
# Families of receivers

Methods run on instances of their own family (`methods_run_in_family`). A method is bound at three
places (`Machine.Attaches`): when a property of an instance is accessed, when a new instance is set
up, and by `super`. The first two find it along the superclasses of the class of the instance;
`super` goes on from the superclass of the class that declares the method at hand, whose `this` is
of the family already. So every frame that binds `this` binds it to an instance whose class is the
class that declares the method, or a descendant of it (`Receives`).
-/

namespace LoxLang

/-! ## Classes that declare methods -/

/-- A class itself has a method, under some name. -/
def Heap.DeclaresMethod (h : Heap) (i k : Nat) : Prop :=
  ∃ (c : Class) (x : String), h.classes[i]? = some c ∧ c.methods.get? x = some k

namespace Heap

variable {h h' : Heap}

theorem Descends.lasts (hd : h.Descends i j) (hl : h.LastsIn h') : h'.Descends i j := by
  induction hd with
  | refl => exact .refl
  | up hc hp _ ih => exact .up (hl.classes hc) hp ih

theorem DeclaresMethod.lasts (hd : h.DeclaresMethod i k) (hl : h.LastsIn h') :
    h'.DeclaresMethod i k := by
  obtain ⟨c, x, hc, hk⟩ := hd
  exact ⟨c, x, hl.classes hc, hk⟩

theorem declares_of_method? (hm : h.method? cls x = some k) :
    ∃ i, h.Descends cls i ∧ h.DeclaresMethod i k := by
  obtain ⟨i, c, hd, hc, hk⟩ := class_of_method? hm
  exact ⟨i, hd, c, x, hc, hk⟩

end Heap

namespace Machine

variable {P : Control → Prop} {m : Machine}

/-- The methods of a class that a step declares are new closures. -/
theorem Turn.declaresMethod (ht : Turn m es h i) (hd : h.DeclaresMethod j k) :
    m.heap.DeclaresMethod j k ∨ j = m.heap.classes.size ∧ m.heap.closures.size ≤ k := by
  cases ht with
  | @declares name superclass methods =>
    obtain ⟨c, x, hc, hk⟩ := hd
    obtain ⟨heap, hclosures, -, hclasses⟩ := heap_declareClass name superclass methods m
    rw [hclasses] at hc
    rcases of_getElem?_push hc with hc | ⟨rfl, rfl⟩
    · exact .inl ⟨c, x, hc, hk⟩
    · have hnew := ((closures_addMethods _ methods [] heap).2 x k hk).resolve_left nofun
      exact .inr ⟨rfl, hclosures ▸ hnew.1⟩
  | _ => exact .inl hd

/-- A method is declared by one class only. -/
theorem Met.declaresMethod_unique (h : Met P m) (hi : m.heap.DeclaresMethod i k)
    (hj : m.heap.DeclaresMethod j k) : i = j := by
  revert i j k
  refine h.induct (Q := fun m => ∀ {i j k : Nat}, m.heap.DeclaresMethod i k →
    m.heap.DeclaresMethod j k → i = j) (fun task _ => ?_) (fun m s hm ih i j k hi hj => ?_)
    fun m task _ ih _ => ih
  · rintro i j k ⟨c, x, hc, -⟩
    cases hc
  · have hold {i : Nat} (hd : m.heap.DeclaresMethod i k) : k < m.heap.closures.size := by
      obtain ⟨d, x, hc, hk⟩ := hd
      obtain ⟨c, hc⟩ := hm.inRange.methods ⟨i, d, x, hc, hk⟩
      exact (Array.getElem?_eq_some_iff.1 hc).1
    -- The methods of a new class are new closures, so no old class has them.
    rcases (turn_step s m).declaresMethod hi with hi | ⟨rfl, hki⟩ <;>
      rcases (turn_step s m).declaresMethod hj with hj | ⟨rfl, hkj⟩
    · exact ih hi hj
    · exact absurd (hold hi) (Nat.not_lt_of_le hkj)
    · exact absurd (hold hj) (Nat.not_lt_of_le hki)
    · rfl

/-- A closure that is a method of a class was one as soon as it was made. -/
theorem Later.hasMethod {a b : Machine} (h : a.Later P b) (hk : b.heap.HasMethod k)
    (hlt : k < a.heap.closures.size) : a.heap.HasMethod k := by
  induction h with
  | refl => exact hk
  | @step m s h ih =>
    obtain ⟨i, hi⟩ := hk
    rcases (turn_step s m).declaresMethod hi with hold | ⟨-, hnew⟩
    · exact ih ⟨i, hold⟩
    · have hc := h.lastsIn.closures (Array.getElem?_eq_getElem hlt)
      exact absurd (Array.getElem?_eq_some_iff.1 hc).1 (Nat.not_lt_of_le hnew)
  | next _ _ ih => exact ih hk

/-- A function that a step makes is not a method of a class, and does not become one. -/
theorem MakesFunction.not_hasMethod {a b : Machine} (hmakes : a.MakesFunction) (ha : a.Met P)
    (h : (a.step s).Later P b) : ¬b.heap.HasMethod a.heap.closures.size := by
  intro hk
  obtain ⟨hclasses, hsize⟩ := hmakes.heap_step s
  obtain ⟨i, c, x, hc, hx⟩ := h.hasMethod hk hsize
  rw [hclasses] at hc
  obtain ⟨c', hc'⟩ := ha.inRange.methods ⟨i, c, x, hc, hx⟩
  exact absurd (Array.getElem?_eq_some_iff.1 hc').1 (Nat.lt_irrefl _)

/-! ## Methods that are bound -/

/-- The next step binds a method to a receiver: by an access, by `super`, or as the initializer of a
new instance. -/
inductive Attaches (m : Machine) : Nat → Value → Prop where
  | selects : m.Selects k v → m.Attaches k v
  | initializes : m.Calls (.cls cls) as → m.heap.arity? (.cls cls) = some as.length →
    m.heap.method? cls Heap.initName = some k → m.Attaches k (.object m.heap.instances.size)

/-- A closure that a step makes is over a frame in which it declares something, or over the first
frame that it makes; if this one has a receiver, it is for the function of the closure. -/
theorem Turn.closure_frame {c : Closure} {k : Nat} (ht : Turn m es h i)
    (hc : h.closures[k]? = some c) :
    m.heap.closures[k]? = some c ∨ (∃ t v, Event.declare c.frame t v ∈ es) ∨
      c.frame = m.size ∧ ∃ ρ, (Event.regions es).head? = some ρ ∧
        ∀ f, ρ = .receiver f → c.declaration = f := by
  cases ht with
  | function =>
    rcases of_getElem?_push hc with hold | ⟨-, rfl⟩
    · exact .inl hold
    · exact .inr (.inl ⟨_, _, List.mem_cons_self⟩)
  | @declares name superclass methods =>
    obtain ⟨heap, hold, hclosures, -⟩ := heap_declareClass name superclass methods m
    rw [hclosures] at hc
    rcases closure_addMethods hc with hc | ⟨-, hframe⟩
    · exact .inl (hold ▸ hc)
    · rw [hframe]
      cases superclass with
      | none => exact .inr (.inl ⟨_, _, List.mem_cons_self⟩)
      | some p => exact .inr (.inr ⟨rfl, _, rfl, nofun⟩)
  | @binds k v c₀ =>
    rcases of_getElem?_push hc with hold | ⟨-, rfl⟩
    · exact .inl hold
    · refine .inr (.inr ⟨rfl, _, rfl, fun f hf => ?_⟩)
      cases hf
      rfl
  | _ => exact .inl hc

end Machine

/-- A closure was made when a machine executed the statement of its function. -/
def Closure.Stated (P : Control → Prop) (m : Machine) (c : Closure) : Prop :=
  ∃ (a : Machine) (s : Setting), a.Met P ∧ (a.step s).Later P m ∧
    a.control = .exec (.function c.declaration) ∧ c = ⟨c.declaration, a.frame, false⟩

/-! ## Frames with receivers -/

/-- A frame binds a method, as its `this`, to an instance. The method is one that a class declares,
and the class of the instance is this class or descends from it. -/
structure FamilyFrame (Met : Machine → List Event → Prop) (log : List Event) (h : Heap) (j : Nat)
    (f : Function) (object cls k : Nat) : Prop where
  /-- The frame was made by a step that bound the method to the instance. -/
  attached : ∃ a before, OnRecord Met log a before ∧ a.size = j ∧ a.Attaches k (.object object)
  stored : .stored ⟨j, "this", .object object, .receiver⟩ ∈ log
  method : ∃ c bs, h.closures[k]? = some c ∧ c.declaration = f ∧
    h.frames.frame? j = some ⟨some c.frame, bs⟩ ∧ bs.contains "this"
  declared : h.DeclaresMethod cls k
  family : ∃ o, h.instances[object]? = some o ∧ h.Descends o.cls cls

/-- What is known of classes and of frames with receivers. -/
structure Families (Met : Machine → List Event → Prop) (log : List Event) (h : Heap) : Prop where
  classes {i : Nat} {c : Class} : h.classes[i]? = some c →
    ∃ a methods, (∃ before, OnRecord Met log a before) ∧ a.Introduces h i c methods
  receivers {j : Nat} {f : Function} :
    (Region.globals :: Event.regions log)[j]? = some (.receiver f) →
      ∃ object cls k, FamilyFrame Met log h j f object cls k
  closures {i : Nat} {c : Closure} {f : Function} : h.closures[i]? = some c →
    (Region.globals :: Event.regions log)[c.frame]? = some (.receiver f) → c.declaration = f

section

variable {Met : Machine → List Event → Prop} {log : List Event} {h h' : Heap}

theorem FamilyFrame.lasts (hb : FamilyFrame Met log h j f object cls k) (hl : h.LastsIn h')
    (es : List Event) : FamilyFrame Met (log ++ es) h' j f object cls k where
  attached := by
    obtain ⟨a, before, hrecord, ha⟩ := hb.attached
    exact ⟨a, before, hrecord.later es, ha⟩
  stored := List.mem_append_left _ hb.stored
  method := by
    obtain ⟨c, bs, hc, hf, hframe, hthis⟩ := hb.method
    obtain ⟨bs', hframe', hgain⟩ := hl.frames hframe
    exact ⟨c, bs', hl.closures hc, hf, hframe', hgain _ hthis⟩
  declared := hb.declared.lasts hl
  family := by
    obtain ⟨o, ho, hd⟩ := hb.family
    obtain ⟨fields, ho'⟩ := hl.instances ho
    exact ⟨⟨o.cls, fields⟩, ho', hd.lasts hl⟩

theorem FamilyFrame.mono (hb : FamilyFrame Met log h j f object cls k)
    (hmet : ∀ m before, Met m before → Met' m before) :
    FamilyFrame Met' log h j f object cls k where
  attached := by
    obtain ⟨a, before, hrecord, ha⟩ := hb.attached
    exact ⟨a, before, hrecord.mono hmet, ha⟩
  stored := hb.stored
  method := hb.method
  declared := hb.declared
  family := hb.family

theorem Families.mono (hf : Families Met log h) (hmet : ∀ m before, Met m before → Met' m before) :
    Families Met' log h where
  classes hc := by
    obtain ⟨a, methods, ⟨before, hrecord⟩, ha⟩ := hf.classes hc
    exact ⟨a, methods, ⟨before, hrecord.mono hmet⟩, ha⟩
  receivers hj := by
    obtain ⟨object, cls, k, hb⟩ := hf.receivers hj
    exact ⟨object, cls, k, hb.mono hmet⟩
  closures := hf.closures

theorem Families.initial : Families Met [] Heap.initial where
  classes := nofun
  receivers {j f} hj := by
    cases j with
    | zero => cases hj
    | succ j => cases hj
  closures := nofun

end

/-- The instance that a frame with a receiver is bound to is its `this`. -/
theorem FamilyFrame.this (hb : FamilyFrame Met log m.heap j f object cls k)
    (h : Moment colored acts a m log) :
    m.heap.frames.lookup? j "this" = some (.object object) := by
  obtain ⟨c, bs, -, -, hframe, hthis⟩ := hb.method
  obtain ⟨v, hv⟩ := Frames.lookup?_of_contains hframe hthis
  rw [hv, h.known.value h.recorded (walked_visitedIn _) hv (by decide) hb.stored rfl]

/-- A frame is that of a bound method. Its `this` is an instance whose class is the only class that
declares the method, or a descendant of it, and the method stands in the statement of this class. -/
structure Receives (Met : Machine → List Event → Prop) (log : List Event) (m : Machine) (j : Nat)
    (f : Function) (object cls k : Nat) : Prop extends
    FamilyFrame Met log m.heap j f object cls k where
  this : m.heap.frames.lookup? j "this" = some (.object object)
  unique {cls' : Nat} : m.heap.DeclaresMethod cls' k → cls' = cls
  introduced : ∃ a before c methods, OnRecord Met log a before ∧ m.heap.classes[cls]? = some c ∧
    a.Introduces m.heap cls c methods ∧ f ∈ methods

theorem FamilyFrame.receives
    (hb : FamilyFrame (MetIn colored (acts ++ [a])) log m.heap j f object cls k)
    (hf : Families (MetIn colored (acts ++ [a])) log m.heap) (h : Moment colored acts a m log) :
    Receives (MetIn colored (acts ++ [a])) log m j f object cls k where
  toFamilyFrame := hb
  this := hb.this h
  unique hd := h.isMet.declaresMethod_unique hd hb.declared
  introduced := by
    obtain ⟨b, bs, hclosure, hdecl, -⟩ := hb.method
    obtain ⟨c, x, hc, hk⟩ := hb.declared
    obtain ⟨declaring, methods, ⟨before, hrecord⟩, hintroduces⟩ := hf.classes hc
    obtain ⟨f', hf', -, hclosure'⟩ := hintroduces.methods hk
    cases hclosure.symm.trans hclosure'
    exact ⟨declaring, before, c, methods, hrecord, hc, hintroduces, hdecl ▸ hf'⟩

/-! ## Superclasses -/

/-- Where `super` is evaluated, `this` is of the family of the class that declares the method, and
`super` is the superclass of this class. -/
structure SuperFrame (Met : Machine → List Event → Prop) (log : List Event) (m : Machine)
    (keyword : Reference) (f : Function) (object cls k p : Nat) : Prop where
  frame : ∃ d j, keyword.hops = some (d + 1) ∧ m.heap.frames.frameAt m.frame d = .ok j ∧
    Receives Met log m j f object cls k ∧
    m.heap.frames.getAt m.frame d "this" = .ok (.object object) ∧
    m.heap.frames.getAt m.frame (d + 1) "super" = .ok (.cls p)
  superclass : ∃ c, m.heap.classes[cls]? = some c ∧ c.superclass = some p

variable {colored : Bool} {acts : List Act} {a : Act} {m : Machine} {log : List Event}

/-- What the frame of the methods of a class binds `super` to is the superclass. -/
theorem Families.superclass (hf : Families (MetIn colored (acts ++ [a])) log m.heap)
    (h : Moment colored acts a m log) {c : Class} {b : Closure} {i k : Nat}
    (hc : m.heap.classes[i]? = some c)
    (hk : c.methods.get? x = some k) (hb : m.heap.closures[k]? = some b)
    (hregion : (Region.globals :: Event.regions log)[b.frame]? = some (.superclass name fs)) :
    ∃ p, c.superclass = some p ∧ m.heap.frames.lookup? b.frame "super" = some (.cls p) := by
  obtain ⟨declaring, methods, hrecord, hintroduces⟩ := hf.classes hc
  obtain ⟨f, -, -, hb'⟩ := hintroduces.methods hk
  cases hb.symm.trans hb'
  obtain ⟨name', hdeclares, -⟩ := hintroduces.statement
  have hexecution : Execution _ log declaring name' c.superclass methods := ⟨hrecord, hdeclares⟩
  obtain ⟨p, hlookup⟩ := h.sound.heap.supers hregion
  obtain ⟨p', hp, hsame⟩ :=
    hexecution.super_value h.known h.recorded (walked_visitedIn _) hregion hlookup
  exact ⟨p', hp, hlookup.trans (congrArg some hsame)⟩

theorem Families.superFrame (hf : Families (MetIn colored (acts ++ [a])) log m.heap)
    (h : Moment colored acts a m log) (hc : m.control = .eval (.super keyword x)) :
    ∃ f object cls k p,
      SuperFrame (MetIn colored (acts ++ [a])) log m keyword f object cls k p := by
  obtain ⟨σ, f, d, name, fs, ha, hwithin, hhops, hregion⟩ :=
    h.sound.within_of_super (walked_visitedIn _) hc
  obtain ⟨j, hj, hρ⟩ := Mirrors.region ha hwithin.receiver
  obtain ⟨home, hhome, hρ'⟩ := Mirrors.region ha hregion
  have houter := Mirrors.enclosing ha hregion hj hhome
  obtain ⟨object, cls, k, hb⟩ := hf.receivers hρ
  obtain ⟨b, bs, hclosure, -, hframe, -⟩ := hb.method
  obtain ⟨c, x, hcls, hk⟩ := hb.declared
  -- The frame of `this` is inside that of the methods, which is the one of `super`.
  obtain rfl : b.frame = home := by
    rw [hframe] at houter
    exact Option.some.inj (Option.some.inj houter)
  obtain ⟨p, hp, hsuper⟩ := hf.superclass h hcls hk hclosure hρ'
  have hr := hb.receives hf h
  exact ⟨f, object, cls, k, p, ⟨d + 1, j, hhops, hj, hr, Frames.getAt_of_frameAt hj hr.this,
    Frames.getAt_of_frameAt hhome hsuper⟩, c, hcls, hp⟩

/-- What is found from `super` is declared by a class that the class of `this` descends from. -/
theorem SuperFrame.declares (hs : SuperFrame Met log m keyword f object cls k p)
    (hm : m.heap.method? p x = some i) :
    ∃ cls' o, m.heap.DeclaresMethod cls' i ∧ m.heap.Descends p cls' ∧
      m.heap.instances[object]? = some o ∧ m.heap.Descends o.cls cls' := by
  obtain ⟨d, j, -, -, hr, -⟩ := hs.frame
  obtain ⟨c, hc, hp⟩ := hs.superclass
  obtain ⟨cls', hd, hdeclares⟩ := Heap.declares_of_method? hm
  obtain ⟨o, ho, hdo⟩ := hr.family
  exact ⟨cls', o, hdeclares, hd, ho, hdo.trans (.up hc hp hd)⟩

/-! ## Steps -/

/-- A method that is selected is declared in the family of the instance that it is bound to. -/
theorem Families.selects (hf : Families (MetIn colored (acts ++ [a])) log m.heap)
    (h : Moment colored acts a m log) (hs : m.Selects k v) :
    ∃ object o cls, v = .object object ∧ m.heap.instances[object]? = some o ∧
      m.heap.Descends o.cls cls ∧ m.heap.DeclaresMethod cls k := by
  cases hs with
  | @property object name _ o _ hc hi ho hfield hk =>
    obtain ⟨cls, hd, hdeclares⟩ := Heap.declares_of_method? hk
    exact ⟨object, o, cls, rfl, ho, hd, hdeclares⟩
  | super hc hhops hsuper hthis hk =>
    obtain ⟨f, object, cls, k₀, p, hs⟩ := hf.superFrame h hc
    obtain ⟨d, j, hhops', -, -, hthis', hsuper'⟩ := hs.frame
    cases hhops.symm.trans hhops'
    cases hsuper.symm.trans hsuper'
    cases hthis.symm.trans hthis'
    obtain ⟨cls', o, hdeclares, -, ho, hd⟩ := hs.declares hk
    exact ⟨object, o, cls', rfl, ho, hd, hdeclares⟩

/-- Nothing is declared in a frame with a receiver. -/
theorem Traced.not_receiver (h : Traced V R e) (ht : e.writer = .declaration t) :
    R[e.frame]? ≠ some (.receiver f) := by
  intro hf
  cases h with
  | declaration hρ hdeclared =>
    cases hf.symm.trans hρ
    rcases hdeclared with hdeclared | hdeclared <;> cases hdeclared
  | _ => cases ht

theorem Moment.not_receiver (h : Moment colored acts a m log)
    (he : Event.declare j t v ∈ m.events) :
    (Region.globals :: Event.regions (log ++ m.events))[j]? ≠ some (.receiver f) := by
  rw [Event.regions_append, ← List.cons_append]
  exact (AllTraced.events h.sound (walked_visitedIn _) _ (Event.mem_storings.2 he)).not_receiver rfl

/-- The frame that a step makes for a receiver is bound to an instance of the family. -/
theorem Families.made (hf : Families (MetIn colored (acts ++ [a])) log m.heap)
    (h : Moment colored acts a m log) (s : Setting)
    (hregion : (Event.regions m.events)[n]? = some (.receiver f)) :
    n = 0 ∧ ∃ object cls k, FamilyFrame (MetIn colored (acts ++ [a])) (log ++ m.events)
      (m.step s).heap m.size f object cls k := by
  have hturn := m.turn_step s
  have hlasts := hturn.lastsIn
  have hrecord : OnRecord (MetIn colored (acts ++ [a])) (log ++ m.events) m log :=
    ⟨h.isMetIn, List.prefix_rfl⟩
  obtain ⟨hfirst, k, c, v, hc, hdecl, hbinding, hattach⟩ := hturn.receiver hregion
  refine ⟨hfirst, ?_⟩
  obtain ⟨hframe, -⟩ := hturn.of_binding hbinding h.isMet.inRange.around.current
  have hmethod : ∃ c bs, (m.step s).heap.closures[k]? = some c ∧ c.declaration = f ∧
      (m.step s).heap.frames.frame? m.size = some ⟨some c.frame, bs⟩ ∧ bs.contains "this" :=
    ⟨c, _, hlasts.closures hc, hdecl, hframe, rfl⟩
  have hstored : .stored ⟨m.size, "this", v, .receiver⟩ ∈ log ++ m.events :=
    List.mem_append_right _ (hbinding.subset (by simp [Event.binding]))
  rcases hattach with hs | ⟨called, as, hcalls, harity, hk, rfl, ho⟩
  · obtain ⟨object, o, cls, rfl, ho, hd, hdeclares⟩ := hf.selects h hs
    obtain ⟨fields, ho'⟩ := hlasts.instances ho
    exact ⟨object, cls, k, ⟨m, log, hrecord, rfl, .selects hs⟩, hstored, hmethod,
      hdeclares.lasts hlasts, _, ho', hd.lasts hlasts⟩
  · obtain ⟨cls, hd, hdeclares⟩ := Heap.declares_of_method? hk
    exact ⟨_, cls, k, ⟨m, log, hrecord, rfl, .initializes hcalls harity hk⟩, hstored, hmethod,
      hdeclares.lasts hlasts, _, ho, hd.lasts hlasts⟩

/-- A closure over a frame with a receiver was there before a step, or is for the same function. -/
theorem Moment.closure_step (h : Moment colored acts a m log) (s : Setting) {c : Closure} {i : Nat}
    (hc : (m.step s).heap.closures[i]? = some c)
    (hregion : (Region.globals :: Event.regions (log ++ m.events))[c.frame]? =
      some (.receiver f)) :
    m.heap.closures[i]? = some c ∨ c.declaration = f := by
  have hsize : (Region.globals :: Event.regions log).length = m.size := h.sound.heap.size
  rcases (m.turn_step s).closure_frame hc with hold | ⟨t, v, he⟩ | ⟨hframe, ρ, hρ, hfor⟩
  · exact .inl hold
  · exact absurd hregion (h.not_receiver he)
  · rw [Event.regions_append, ← List.cons_append, hframe, ← hsize,
      List.getElem?_append_right (Nat.le_refl _), Nat.sub_self, ← List.head?_eq_getElem?,
      hρ] at hregion
    exact .inr (hfor f (Option.some.inj hregion))

theorem Families.step (hf : Families (MetIn colored (acts ++ [a])) log m.heap)
    (h : Moment colored acts a m log) (s : Setting) :
    Families (MetIn colored (acts ++ [a])) (log ++ m.events) (m.step s).heap where
  classes {i c} hc := by
    rcases (m.turn_step s).class h.isMet.inRange.around.current hc with hold | ⟨methods, hnew⟩
    · obtain ⟨b, methods, ⟨before, hb⟩, hintroduces⟩ := hf.classes hold
      exact ⟨b, methods, ⟨before, hb.later _⟩, hintroduces.lasts (m.turn_step s).lastsIn⟩
    · exact ⟨m, methods, ⟨log, h.isMetIn, List.prefix_rfl⟩, hnew⟩
  receivers {j f} hj := by
    have hsize : (Region.globals :: Event.regions log).length = m.size := h.sound.heap.size
    rw [Event.regions_append, ← List.cons_append] at hj
    rcases Nat.lt_or_ge j (Region.globals :: Event.regions log).length with hlt | hge
    · rw [List.getElem?_append_left hlt] at hj
      obtain ⟨object, cls, k, hb⟩ := hf.receivers hj
      exact ⟨object, cls, k, hb.lasts (m.turn_step s).lastsIn _⟩
    · rw [List.getElem?_append_right hge] at hj
      obtain ⟨hfirst, hmade⟩ := hf.made h s hj
      obtain rfl : j = m.size := by omega
      exact hmade
  closures {i c f} hc hregion := by
    rcases h.closure_step s hc hregion with hold | hfor
    · refine hf.closures hold ?_
      rwa [Event.regions_append, ← List.cons_append, List.getElem?_append_left] at hregion
      exact Nat.lt_of_lt_of_eq (h.isMet.inRange.closures hold) h.sound.heap.size.symm
    · exact hfor

/-- At every moment methods are bound to instances of their families. -/
theorem Moment.families (h : Moment colored acts a m log) :
    Families (MetIn colored (acts ++ [a])) log m.heap := by
  have hq : Endures colored fun acts log h => Families (MetIn colored acts) log h := {
    initial := .initial
    more := fun {_ a _ _} hf => hf.mono fun _ _ h => h.more a
    step := fun h hf s => hf.step h s }
  exact hq.moment h

/-! ## At every moment -/

namespace Moment

/-- A frame in which `this` is bound is that of a bound method, and so is every closure over it. -/
theorem receives (h : Moment colored acts a m log)
    (hthis : m.heap.frames.lookup? j "this" = some v) :
    ∃ f object cls k, v = .object object ∧
      Receives (MetIn colored (acts ++ [a])) log m j f object cls k ∧
      ∀ (i : Nat) (c : Closure), m.heap.closures[i]? = some c → c.frame = j →
        c.declaration = f := by
  obtain ⟨s, hs, rfl, hname, -⟩ := h.recorded.stored_of_lookup? hthis (by decide)
  obtain ⟨f, hf⟩ :=
    (h.traced s (Event.mem_storings.2 hs)).receiver_of_this (walked_visitedIn _) hname
  obtain ⟨object, cls, k, hb⟩ := h.families.receivers hf
  have hr := hb.receives h.families h
  exact ⟨f, object, cls, k, Option.some.inj (hthis.symm.trans hr.this), hr,
    fun i c hc hframe => h.families.closures hc (hframe ▸ hf)⟩

/-- A method is bound to an instance of its family, or is the initializer of a class of its
family. -/
theorem attaches (h : Moment colored acts a m log) (hb : m.Attaches k v) :
    ∃ object cls, v = .object object ∧ m.heap.DeclaresMethod cls k ∧
      ((∃ o, m.heap.instances[object]? = some o ∧ m.heap.Descends o.cls cls) ∨
        object = m.heap.instances.size ∧
          ∃ called as, m.Calls (.cls called) as ∧ m.heap.Descends called cls) := by
  cases hb with
  | selects hs =>
    obtain ⟨object, o, cls, rfl, ho, hd, hdeclares⟩ := h.families.selects h hs
    exact ⟨object, cls, rfl, hdeclares, .inl ⟨o, ho, hd⟩⟩
  | @initializes called as _ hcalls _ hk =>
    obtain ⟨cls, hd, hdeclares⟩ := Heap.declares_of_method? hk
    exact ⟨_, cls, rfl, hdeclares, .inr ⟨rfl, called, as, hcalls, hd⟩⟩

/-- A function that is called is that of a function statement, or a bound method. -/
theorem calls (h : Moment colored acts a m log) (hcalls : m.Calls (.closure k) as) :
    ¬m.heap.HasMethod k ∧ ∃ c, m.heap.closures[k]? = some c ∧
      (c.Stated Control.FromText m ∨
        ∃ object cls k', Receives (MetIn colored (acts ++ [a])) log m c.frame c.declaration
          object cls k') := by
  have hmade := h.isMet.holdsMade fun task (htask : task.FromText) => by cases htask <;> rfl
  obtain ⟨b, s, hb, hlater, rfl, hmakes⟩ := hmade.calls hcalls
  refine ⟨hmakes.not_hasMethod hb hlater, ?_⟩
  cases hmakes with
  | @statement f hc =>
    have hnew : (b.step s).heap.closures[b.heap.closures.size]? = some ⟨f, b.frame, false⟩ := by
      simp only [Machine.step, hc, Machine.execute]
      exact Array.getElem?_push_size
    exact ⟨_, hlater.lastsIn.closures hnew, .inl ⟨b, s, hb, hlater, hc, rfl⟩⟩
  | @bound k v c hs hc =>
    have hstep := hs.heap_step hc s
    have hnew : (b.step s).heap.closures[b.heap.closures.size]? =
        some { c with frame := b.size } := by
      rw [hstep]
      exact Array.getElem?_push_size
    have hframe : (b.step s).heap.frames.frame? b.size = some ⟨some c.frame, [("this", v)]⟩ := by
      rw [hstep]
      exact Frames.frame?_make_self ..
    -- The frame of the binding is still there, and so is a `this` in it.
    have hclosure := hlater.lastsIn.closures hnew
    obtain ⟨bs, hframe', hgain⟩ := hlater.lastsIn.frames hframe
    obtain ⟨v', hthis⟩ := Frames.lookup?_of_contains hframe' (hgain "this" rfl)
    obtain ⟨f, object, cls, k', -, hr, hfunctions⟩ := h.receives hthis
    obtain rfl := hfunctions _ _ hclosure rfl
    exact ⟨_, hclosure, .inr ⟨object, cls, k', hr⟩⟩

/-- Code of a method runs in a call of it, inside the frame of the bound method. -/
theorem activation (h : Moment colored acts a m log)
    (hn : m.Evaluates V (.globals :: Event.regions log) n σ) (hin : σ.Within f d) :
    ∃ frame j object cls k, m.heap.frames.frameAt m.frame d = .ok frame ∧
      (Region.globals :: Event.regions log)[frame]? = some (.call f) ∧
      m.heap.frames.frameAt m.frame (d + 1) = .ok j ∧
      Receives (MetIn colored (acts ++ [a])) log m j f object cls k := by
  obtain ⟨frame, hframe, hregion⟩ := Mirrors.region hn.frames hin.body
  obtain ⟨j, hj, hreceiver⟩ := Mirrors.region hn.frames hin.receiver
  obtain ⟨object, cls, k, hb⟩ := h.families.receivers hreceiver
  exact ⟨frame, j, object, cls, k, hframe, hregion, hj, hb.receives h.families h⟩

end Moment

/-- Methods only run on instances of their own family. At every moment of a session, what a frame
binds `this` to is an instance whose class is the class that declares the method of the frame, or a
descendant of it. Wherever a method is bound, it is to such an instance: as a property, by `super`,
and as the initializer of a new instance. A function that is called is bound in this way, or it was
made by a function statement; it is never a method as the class has it. So the code of a method,
however deep in blocks and functions, runs inside such a frame; and `super`, from the superclass of
the declaring class on, finds only methods of classes that the class of `this` descends from. -/
theorem methods_run_in_family (h : Moment colored acts a m log) :
    let V := VisitedIn (acts ++ [a])
    let R := Region.globals :: Event.regions log
    let Met := MetIn colored (acts ++ [a])
    (∀ j v, m.heap.frames.lookup? j "this" = some v →
      ∃ f object cls k, v = .object object ∧ Receives Met log m j f object cls k ∧
        ∀ (i : Nat) (c : Closure), m.heap.closures[i]? = some c → c.frame = j →
          c.declaration = f) ∧
    (∀ k v, m.Attaches k v →
      ∃ object cls, v = .object object ∧ m.heap.DeclaresMethod cls k ∧
        ((∃ o, m.heap.instances[object]? = some o ∧ m.heap.Descends o.cls cls) ∨
          object = m.heap.instances.size ∧
            ∃ called as, m.Calls (.cls called) as ∧ m.heap.Descends called cls)) ∧
    (∀ k as, m.Calls (.closure k) as →
      ¬m.heap.HasMethod k ∧ ∃ c, m.heap.closures[k]? = some c ∧
        (c.Stated Control.FromText m ∨
          ∃ object cls k', Receives Met log m c.frame c.declaration object cls k')) ∧
    (m.control.isNode → ∃ n σ, m.Evaluates V R n σ) ∧
    (∀ n σ f d, m.Evaluates V R n σ → σ.Within f d →
      ∃ frame j object cls k, m.heap.frames.frameAt m.frame d = .ok frame ∧
        R[frame]? = some (.call f) ∧ m.heap.frames.frameAt m.frame (d + 1) = .ok j ∧
        Receives Met log m j f object cls k) ∧
    (∀ keyword x, m.control = .eval (.super keyword x) →
      ∃ f object cls k p, SuperFrame Met log m keyword f object cls k p ∧
        ∀ i, m.heap.method? p x.lexeme = some i →
          ∃ cls' o, m.heap.DeclaresMethod cls' i ∧ m.heap.Descends p cls' ∧
            m.heap.instances[object]? = some o ∧ m.heap.Descends o.cls cls') := by
  refine ⟨fun j v hthis => h.receives hthis, fun k v hb => h.attaches hb,
    fun k as hcalls => h.calls hcalls, h.sound.evaluates,
    fun n σ f d hn hin => h.activation hn hin, fun keyword x hc => ?_⟩
  obtain ⟨f, object, cls, k, p, hs⟩ := h.families.superFrame h hc
  exact ⟨f, object, cls, k, p, hs, fun i hi => hs.declares hi⟩

/-- The next step calls a bound method without arguments. -/
def Machine.callsBound (m : Machine) : Bool :=
  match m.control, m.stack.items with
  | .value (.closure k), .callee _ [] :: _ =>
    m.heap.closures[k]?.any fun c => (m.heap.frames.lookup? c.frame "this").isSome
  | _, _ => false

theorem Machine.calls_of_callsBound {m : Machine} (h : m.callsBound) :
    ∃ k c v, m.Calls (.closure k) [] ∧ m.heap.closures[k]? = some c ∧
      m.heap.frames.lookup? c.frame "this" = some v := by
  unfold callsBound at h
  split at h
  · next k paren rest hc hs =>
    obtain ⟨c, hclosure, hthis⟩ := (Option.any_eq_true _ _).1 h
    obtain ⟨v, hv⟩ := Option.isSome_iff_exists.1 hthis
    exact ⟨k, c, v, .plain hc hs, hclosure, hv⟩
  · cases h

/-- A method that an instance of a subclass inherits is kept in a variable and called, and the
function that it returns evaluates `super`. -/
theorem methods_run_in_family_of_subclass :
    let a : Act := .run true ⟨40, 40, ⟨100, fun _ => 0⟩, 1000⟩ "a.lox"
      "class A { m() { return this; } }
       class B < A { m() { fun f() { return super.m; } return f; } }
       class C < B { } var m = C().m; var f = m(); f();"
    (∃ m log, Moment false [] a m log ∧ ∃ k c object cls k', m.Calls (.closure k) [] ∧
      m.heap.closures[k]? = some c ∧ ¬m.heap.HasMethod k ∧
        Receives (MetIn false [a]) log m c.frame c.declaration object cls k') ∧
    ∃ m log, Moment false [] a m log ∧ ∃ keyword f object cls k p i cls' o,
      SuperFrame (MetIn false [a]) log m keyword f object cls k p ∧
        m.heap.method? p "m" = some i ∧ m.heap.DeclaresMethod cls' i ∧
          m.heap.instances[object]? = some o ∧ o.cls = 2 ∧ m.heap.Descends 2 cls' := by
  intro a
  constructor
  · have hmet : ((Session.start false).machine? a 26).any (·.callsBound) := by decide +kernel
    obtain ⟨m, hm, h⟩ := (Option.any_eq_true _ _).1 hmet
    obtain ⟨log, hmoment⟩ : ∃ log, Moment false [] a m log := ⟨_, 26, hm, rfl⟩
    obtain ⟨k, c, v, hcalls, hclosure, hthis⟩ := Machine.calls_of_callsBound h
    obtain ⟨hframes, -, hfunctions, -⟩ := methods_run_in_family hmoment
    obtain ⟨f, object, cls, k', -, hreceives, hover⟩ := hframes _ v hthis
    obtain rfl := hover k c hclosure rfl
    exact ⟨m, log, hmoment, k, c, object, cls, k', hcalls, hclosure, (hfunctions k [] hcalls).1,
      hreceives⟩
  · have hmet : ((Session.start false).machine? a 45).any fun m =>
        m.findsSuper "m" ⟨100, fun _ => 0⟩ && m.heap.instances.all (·.cls = 2) := by decide +kernel
    obtain ⟨m, hm, h⟩ := (Option.any_eq_true _ _).1 hmet
    obtain ⟨hfinds, hall⟩ := Bool.and_eq_true_iff.1 h
    obtain ⟨log, hmoment⟩ : ∃ log, Moment false [] a m log := ⟨_, 45, hm, rfl⟩
    unfold Machine.findsSuper at hfinds
    split at hfinds
    · next keyword x _ hc hv =>
      obtain ⟨-, -, -, -, -, hsupers⟩ := methods_run_in_family hmoment
      obtain ⟨f, object, cls, k, p, hs, hdeclares⟩ := hsupers keyword x hc
      obtain ⟨d, j, hhops, -, -, hthis, hsuper⟩ := hs.frame
      cases hi : m.heap.method? p x.lexeme with
      | none =>
        simp only [Machine.step, hc, Machine.evaluate, Machine.superMethod, hhops, hsuper, hthis,
          hi, Nat.add_sub_cancel] at hv
        cases hv
      | some i =>
        obtain ⟨cls', o, hdeclared, -, ho, hd⟩ := hdeclares i hi
        have hx : x.lexeme = "m" := of_decide_eq_true hfinds
        have hcls : o.cls = 2 := of_decide_eq_true
          (Array.all_eq_true_iff_forall_mem.1 hall o (Array.mem_of_getElem? ho))
        exact ⟨m, log, hmoment, keyword, f, object, cls, k, p, i, cls', o, hs, hx ▸ hi, hdeclared,
          ho, hcls, hcls ▸ hd⟩
    · cases hfinds

end LoxLang
