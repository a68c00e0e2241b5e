import LoxLang.Proofs.ImmutableStructure
import LoxLang.Proofs.InsideMethods

/-!
# Method calls

A record of a call of a method (`Stage.MethodCall`) names the stages that led to it: the execution
of the class declaration that made the method, the step that bound the method to a receiver, and the
call of the closure that was made there; or the call of a class, whose initializer is bound and
called at once. The frame of the call is the one that this call has made.

In such a frame the receiver is the `this` one link out, and behind it stands the frame of the
methods of that execution, with the superclass that it evaluated (`MethodCall.frames`,
`MethodCall.super`). Conversely there is a record for every frame of a method in the frame of a
receiver (`Stage.Met.exists_methodCall`).
-/

namespace LoxLang

namespace Machine

/-- The next step calls a value with as many arguments as the value takes. -/
structure Invokes (m : Machine) (v : Value) (as : List Value) : Prop where
  calls : m.Calls v as
  arity : m.heap.arity? v = some as.length

/-- The next step executes a class declaration, and the closure of a number is the one of a method
that it makes. -/
inductive MakesMethod (m : Machine) (superclass : Option Nat) (f : Function) : Nat → Prop where
  | intro : m.Declares name superclass methods → methods[i]? = some f →
    MakesMethod m superclass f (m.heap.closures.size + i)

end Machine

namespace Stage

/-- A method was called, bound to a receiver, and a frame was made by this call. The method is one
of a class declaration that was executed with a superclass, or without one. -/
inductive MethodCall (P : Control → Prop) (x declaring : Stage) (superclass : Option Nat)
    (f : Function) : Value → Nat → Prop where
  /-- The method was bound by an access or by `super`, and the function that binding it made was
  called. -/
  | bound : declaring.machine.MakesMethod superclass f k → declaring.Before P binding →
    binding.machine.Selects k receiver → binding.Before P calling →
    calling.machine.Invokes (.closure binding.machine.heap.closures.size) as →
    calling.Before P x → MethodCall P x declaring superclass f receiver calling.machine.size
  /-- A class was called, and the method was bound to the new instance, as its initializer. -/
  | created : declaring.machine.MakesMethod superclass f k → declaring.Before P calling →
    calling.machine.Invokes (.cls cls) as →
    calling.machine.heap.method? cls Heap.initName = some k → calling.Before P x →
    MethodCall P x declaring superclass f (.object calling.machine.heap.instances.size)
      (calling.machine.size + 1)

end Stage

/-! ## Calls -/

namespace Machine

variable {m : Machine} {P : Control → Prop}

/-- What a call of a closure leaves. -/
theorem Invokes.heap_closure (h : m.Invokes (.closure k) as) {c : Closure}
    (hc : m.heap.closures[k]? = some c) (s : Setting) :
    (m.step s).heap =
      (m.heap.enclose c.frame (bindParameters c.declaration.parameters as [])).2 := by
  obtain ⟨hcalls, harity⟩ := h
  obtain ⟨paren, hstep⟩ := hcalls.step_back s
  rw [hstep]
  simp only [call, callValue, heap_back, harity, hc, if_pos, invoke, heap_enter]

/-- What a call of a class with an initializer leaves. -/
theorem Invokes.heap_class (h : m.Invokes (.cls cls) as) {c : Closure}
    (hk : m.heap.method? cls Heap.initName = some k) (hc : m.heap.closures[k]? = some c)
    (s : Setting) :
    (m.step s).heap =
      (((m.heap.addInstance cls).2.encloseReceiver c (.object m.heap.instances.size)).2.enclose
        m.size (bindParameters c.declaration.parameters as [])).2 := by
  obtain ⟨hcalls, harity⟩ := h
  obtain ⟨paren, hstep⟩ := hcalls.step_back s
  rw [hstep]
  simp only [call, callValue, instantiate, heap_back, harity, hk, hc, if_pos, invoke, heap_enter]
  rfl

theorem Invokes.bindsMethod (h : m.Invokes (.cls cls) as) {c : Closure}
    (hk : m.heap.method? cls Heap.initName = some k) (hc : m.heap.closures[k]? = some c) :
    m.BindsMethod c (.object m.heap.instances.size) := by
  obtain ⟨hcalls, harity⟩ := h
  have hevents : m.events = m.instantiateEvents cls as := by
    cases hcalls with
    | plain hcontrol hi =>
      simp only [events, hcontrol, hi, receiveEvents_callee, if_pos, callEvents, harity]
      rfl
    | withArguments hcontrol hi =>
      simp only [events, hcontrol, hi, receiveEvents_argument, if_pos, callEvents, harity]
      rfl
  refine ⟨Event.calling (m.size + 1) { c with frame := m.size } as, ?_⟩
  rw [hevents]
  simp only [instantiateEvents, hk, hc]

/-- A method that a class declaration makes is over the frame of its methods. -/
theorem MakesMethod.closure (h : m.MakesMethod superclass f k) (s : Setting) :
    (m.step s).heap.closures[k]? =
      some ⟨f, m.methodFrame superclass, f.name.lexeme = Heap.initName⟩ := by
  cases h with
  | intro hd hi => rw [closures_of_declares hd s, hi, Option.map_some]

/-- The frame of the methods of a class with a superclass has it as its `super`, for good. -/
theorem MakesMethod.lookup?_super (h : m.MakesMethod (some superclass) f k)
    (hm : m.Met Control.FromText) (s : Setting) (hl : (m.step s).Later Control.FromText b) :
    b.heap.frames.lookup? m.size "super" = some (.cls superclass) := by
  cases h with
  | @intro name methods i hd =>
    have hrange := hm.inRange
    have hlt := hrange.around.current
    obtain ⟨stack, hstep⟩ := step_of_declares hd s
    have hframe : (m.step s).heap.frames.frame? m.size =
        some ⟨some m.frame, [("super", .cls superclass)]⟩ := by
      rw [hstep, heap_declareClass_stack]
      exact superFrame_declareClass hlt name superclass methods
    have hlookup : (m.step s).heap.frames.lookup? m.size "super" = some (.cls superclass) := by
      rw [Frames.lookup?, hframe]
      rfl
    -- The step goes on in the frame of the declaration, and not in the new one.
    have haround : (m.step s).Around (· ≠ m.size) := by
      refine (hrange.around.mono fun _ => Nat.ne_of_lt).step_of_frame s ?_
      rw [hstep, frame_declareClass]
      exact Nat.ne_of_lt hlt
    rw [← hlookup]
    exact hl.lookup?_keyword (hm.later (.step s .refl)) (Frames.lt_of_frame? hframe) haround
      (by decide)

/-- Around the frame in which a method is bound is that of the method. -/
theorem BindsMethod.enclosing (h : m.BindsMethod c v) (hm : m.Met P) (s : Setting)
    (hl : (m.step s).Later P b) : b.heap.frames.enclosing? m.size = some (some c.frame) := by
  obtain ⟨hframe, -⟩ := (turn_step s m).of_binding h hm.inRange.around.current
  exact hl.lastsIn.enclosing (congrArg (Option.map _) hframe)

theorem Invokes.enclosing_closure (h : m.Invokes (.closure k) as) {c : Closure}
    (hc : m.heap.closures[k]? = some c) (s : Setting) (hl : (m.step s).Later P b) :
    b.heap.frames.enclosing? m.size = some (some c.frame) := by
  refine hl.lastsIn.enclosing ?_
  rw [h.heap_closure hc s]
  exact congrArg (Option.map _) (Frames.frame?_make_self ..)

theorem Invokes.enclosing_class (h : m.Invokes (.cls cls) as) {c : Closure}
    (hk : m.heap.method? cls Heap.initName = some k) (hc : m.heap.closures[k]? = some c)
    (s : Setting) (hl : (m.step s).Later P b) :
    b.heap.frames.enclosing? (m.size + 1) = some (some m.size) := by
  refine hl.lastsIn.enclosing ?_
  rw [h.heap_class hk hc s, size, ← size_enclose]
  exact congrArg (Option.map _) (Frames.frame?_make_self ..)

end Machine

namespace Stage

variable {P : Control → Prop} {x y declaring : Stage} {superclass : Option Nat} {f : Function}
  {receiver : Value} {frame j n : Nat} {ρ : Region}

namespace MethodCall

/-- The class declaration was executed before. -/
theorem declared (h : x.MethodCall P declaring superclass f receiver frame) :
    declaring.Before P x ∧ ∃ k, declaring.machine.MakesMethod superclass f k := by
  cases h with
  | bound hmakes hbinding _ hcalling _ hx =>
    exact ⟨(hbinding.trans hcalling).trans hx, _, hmakes⟩
  | created hmakes hcalling _ _ hx => exact ⟨hcalling.trans hx, _, hmakes⟩

/-- The frame of the methods of a class with a superclass has it as its `super`. -/
theorem lookup?_super
    (h : x.MethodCall Control.FromText declaring (some c) f receiver frame) :
    x.machine.heap.frames.lookup? declaring.machine.size "super" = some (.cls c) := by
  obtain ⟨⟨hdeclaring, s, hlater⟩, _, hmakes⟩ := h.declared
  exact hmakes.lookup?_super hdeclaring.machine s hlater.machine

/-- Around the frame of a call is that of the receiver, and around it that of the methods. -/
theorem frames
    (h : x.MethodCall Control.FromText declaring superclass f receiver frame) :
    ∃ j, x.machine.heap.frames.enclosing? frame = some (some j) ∧
      x.machine.heap.frames.lookup? j "this" = some receiver ∧
      x.machine.heap.frames.enclosing? j =
        some (some (declaring.machine.methodFrame superclass)) := by
  cases h with
  | @bound k binding calling _ as hmakes hbinding hselects hcalling hinvokes hx =>
    obtain ⟨s₁, hdeclared⟩ := hbinding.machine
    obtain ⟨s₂, hbound⟩ := hcalling.machine
    obtain ⟨s₂', hbound'⟩ := (hcalling.trans hx).machine
    obtain ⟨s₃, hcalled⟩ := hx.machine
    have hc := hdeclared.lastsIn.closures (hmakes.closure s₁)
    have hbinds := hselects.bindsMethod hc
    obtain ⟨hclosure, -⟩ := hselects.lasts hc hcalling.1.machine s₂ hbound
    exact ⟨_, hinvokes.enclosing_closure hclosure s₃ hcalled,
      hbinds.lookup?_this hcalling.1.machine s₂' hbound',
      hbinds.enclosing hcalling.1.machine s₂' hbound'⟩
  | @created k calling cls as hmakes hcalling hinvokes hk hx =>
    obtain ⟨s₁, hdeclared⟩ := hcalling.machine
    obtain ⟨s₂, hcalled⟩ := hx.machine
    have hc := hdeclared.lastsIn.closures (hmakes.closure s₁)
    have hbinds := hinvokes.bindsMethod hk hc
    exact ⟨_, hinvokes.enclosing_class hk hc s₂ hcalled,
      hbinds.lookup?_this hx.1.machine s₂ hcalled, hbinds.enclosing hx.1.machine s₂ hcalled⟩

end MethodCall

/-! ## Regions of frames -/

/-- A frame keeps its region. -/
theorem Later.region (h : x.Later P y)
    (hj : (Region.globals :: Event.regions x.log)[j]? = some ρ) :
    (Region.globals :: Event.regions y.log)[j]? = some ρ := by
  obtain ⟨rest, hrest⟩ := h.log
  rw [← hrest, Event.regions_append, ← List.cons_append,
    List.getElem?_append_left (List.getElem?_eq_some_iff.1 hj).1, hj]

theorem Later.region_of_lt (h : x.Later P y) (hx : x.Met P) (hlt : j < x.machine.size)
    (hj : (Region.globals :: Event.regions y.log)[j]? = some ρ) :
    (Region.globals :: Event.regions x.log)[j]? = some ρ := by
  rw [← hx.length_regions] at hlt
  rw [← hj, h.region (List.getElem?_eq_getElem hlt), List.getElem?_eq_getElem hlt]

/-- The region of a frame that a step makes. -/
theorem Met.region_made (h : x.Met P) (hn : (Event.regions x.machine.events)[n]? = some ρ)
    (s : Setting) :
    (Region.globals :: Event.regions (x.step s).log)[x.machine.size + n]? = some ρ := by
  rw [step, Event.regions_append, ← List.cons_append, ← h.length_regions,
    List.getElem?_append_right (Nat.le_add_right ..), Nat.add_sub_cancel_left, hn]

end Stage

/-- Where a step goes on: in the same frame, in one that leads back, or in that of a block or a
call. -/
theorem Machine.Turn.frame_region {m : Machine} (ht : m.Turn es h i) :
    i = m.frame ∨ (∃ w rest, m.stack.pop? = some (w, rest) ∧ i = w.frameAfter m.frame) ∨
      ∃ n ρ, i = m.size + n ∧ (Event.regions es)[n]? = some ρ ∧ ρ.aroundMethods = false := by
  cases ht with
  | quiet hi => exact hi.imp_right .inl
  | block hi => exact hi.imp_right fun e => .inr ⟨0, .block _, e, rfl, rfl⟩
  | calls _ _ _ hi =>
    exact hi.imp_right fun e => .inr ⟨0, .call _, e, by rw [Event.regions_calling]; rfl, rfl⟩
  | @constructs _ _ _ c _ _ _ _ _ hi =>
    refine hi.imp_right fun e => .inr ⟨1, .call c.declaration, e, ?_, rfl⟩
    rw [Event.regions_append, Event.regions_binding, Event.regions_calling]
    rfl
  | _ => exact .inl rfl

/-- A frame is not one of those around the methods of a class. -/
def Stage.Ordinary (x : Stage) (j : Nat) : Prop :=
  ∃ ρ, (Region.globals :: Event.regions x.log)[j]? = some ρ ∧ ρ.aroundMethods = false

namespace Stage

variable {P : Control → Prop} {x y : Stage}

theorem Ordinary.later (h : x.Ordinary j) (hl : x.Later P y) : y.Ordinary j := by
  obtain ⟨ρ, hρ, hordinary⟩ := h
  exact ⟨ρ, hl.region hρ, hordinary⟩

/-- Code goes on in ordinary frames. -/
theorem Met.ordinary (h : x.Met P) : x.machine.Around x.Ordinary := by
  refine h.induct (Q := fun x => x.machine.Around x.Ordinary)
    (fun task _ => .start .initial ⟨_, rfl, rfl⟩ task) (fun x s hx ih => ?_)
    fun x task hx ih _ => .start _ ih.homeFrame task
  have hlater : x.Later P (x.step s) := .step s .refl
  have hold : x.machine.Around (x.step s).Ordinary := ih.mono fun _ hj => hj.later hlater
  refine hold.step_of_frame s ?_
  obtain hf | ⟨w, rest, hpop, hf⟩ | ⟨n, ρ, hf, hρ, hordinary⟩ :=
    (x.machine.turn_step s).frame_region
  · exact hf ▸ hold.current
  · exact hf ▸ (hold.leaving hpop).current
  · exact hf ▸ ⟨ρ, hx.region_made hρ s, hordinary⟩

end Stage

/-! ## Receivers and superclasses -/

namespace Stage.MethodCall

variable {x declaring : Stage} {superclass : Option Nat} {f : Function} {receiver : Value}
  {frame i d : Nat}

/-- In a call of a method `this` is the receiver. -/
theorem this (h : x.MethodCall Control.FromText declaring superclass f receiver frame)
    (hframe : x.machine.heap.frames.frameAt i d = .ok frame) :
    x.machine.heap.frames.getAt i (d + 1) "this" = .ok receiver := by
  obtain ⟨j, hj, hthis, -⟩ := h.frames
  obtain ⟨_, hf, -⟩ := Option.bind_eq_some_iff.1 hthis
  exact Frames.getAt_of_frameAt (Frames.frameAt_link hframe hj hf) hthis

/-- In a call of a method that has the scope of `super` around it, `super` is the superclass that
the execution of the class declaration evaluated. -/
theorem super (h : x.MethodCall Control.FromText declaring superclass f receiver frame)
    (hframe : x.machine.heap.frames.frameAt i d = .ok frame)
    (hhome : x.machine.heap.frames.frameAt i (d + 2) = .ok home)
    (hregion : (Region.globals :: Event.regions x.log)[home]? = some (.superclass name fs)) :
    ∃ c, superclass = some c ∧ x.machine.heap.frames.getAt i (d + 2) "super" = .ok (.cls c) := by
  obtain ⟨j, hj, hthis, houter⟩ := h.frames
  obtain ⟨_, hf, -⟩ := Option.bind_eq_some_iff.1 hthis
  obtain rfl := Frames.frameAt_enclosing (Frames.frameAt_link hframe hj hf) houter hhome
  cases superclass with
  | some c => exact ⟨c, rfl, Frames.getAt_of_frameAt hhome h.lookup?_super⟩
  | none =>
    -- The methods are over the frame of the declaration, which is not one for `super`.
    obtain ⟨⟨hdeclaring, s, hlater⟩, -⟩ := h.declared
    obtain ⟨ρ, hρ, hordinary⟩ :=
      hdeclaring.ordinary.current.later ((Later.step s .refl).trans hlater)
    cases hregion.symm.trans hρ
    cases hordinary

end Stage.MethodCall

/-! ## Where calls come from -/

namespace Machine

variable {m : Machine}

/-- The frame of a call was made by a call of a closure, or as that of an initializer. -/
theorem Turn.call_made (ht : m.Turn es h i) (hn : (Event.regions es)[n]? = some (.call f)) :
    (∃ k c as, m.Invokes (.closure k) as ∧ m.heap.closures[k]? = some c ∧ c.declaration = f ∧
      n = 0) ∨
    ∃ cls k c as, m.Invokes (.cls cls) as ∧ m.heap.method? cls Heap.initName = some k ∧
      m.heap.closures[k]? = some c ∧ c.declaration = f ∧ n = 1 := by
  have hmem := List.mem_of_getElem? hn
  cases ht with
  | @calls _ k c as hcalls harity hc =>
    rw [Event.regions_calling] at hn
    cases n with
    | zero => cases hn; exact .inl ⟨k, c, as, ⟨hcalls, harity⟩, hc, rfl, rfl⟩
    | succ n => cases hn
  | @constructs _ cls k c as hcalls harity hk hc =>
    rw [Event.regions_append, Event.regions_binding, Event.regions_calling] at hn
    rcases n with _ | _ | n
    · cases hn
    · cases hn; exact .inr ⟨cls, k, c, as, ⟨hcalls, harity⟩, hk, hc, rfl, rfl⟩
    · cases hn
  | @declares name superclass =>
    cases superclass <;> simp [declareClassEvents, Event.declare] at hmem
  | binds => simp [Event.regions_binding] at hmem
  | _ => simp [Event.declare] at hmem

/-- A closure that a step makes is over the frame at hand, or over a new one with a `super`, or it
is that of a method that the step binds. -/
theorem Turn.closure_made {c : Closure} (ht : m.Turn es h i) (hc : h.closures[k]? = some c)
    (hnew : m.heap.closures[k]? ≠ some c) :
    c.frame = m.frame ∨
    (c.frame = m.size ∧ ∃ name fs, (Event.regions es)[0]? = some (.superclass name fs)) ∨
    ∃ (k' : Nat) (c' : Closure) (v : Value), m.Selects k' v ∧ m.heap.closures[k']? = some c' ∧
      k = m.heap.closures.size ∧ c = { c' with frame := m.size } := by
  cases ht with
  | function =>
    obtain ⟨-, rfl⟩ := (of_getElem?_push hc).resolve_left hnew
    exact .inl rfl
  | @declares name superclass methods =>
    obtain ⟨heap, hold, hclosures, -⟩ := heap_declareClass name superclass methods m
    rw [hclosures] at hc
    obtain ⟨-, hframe⟩ := (closure_addMethods hc).resolve_left (hold ▸ hnew)
    cases superclass with
    | none => exact .inl hframe
    | some p => exact .inr (.inl ⟨hframe, name, methods, rfl⟩)
  | @binds k' v c' hs hc' =>
    obtain ⟨hk, rfl⟩ := (of_getElem?_push hc).resolve_left hnew
    exact .inr (.inr ⟨k', c', v, hs, hc', hk, rfl⟩)
  | _ => exact absurd hc hnew

theorem Selects.hasMethod (h : m.Selects k v) : m.heap.HasMethod k := by
  cases h with
  | property _ _ _ _ hk | super _ _ _ _ hk => exact Heap.hasMethod_of_method? hk

end Machine

namespace Stage

variable {P : Control → Prop} {x y : Stage}

/-- A method was made by an earlier execution of a class declaration. -/
theorem Met.method_made (h : x.Met P) (hk : x.machine.heap.HasMethod k) {c : Closure}
    (hc : x.machine.heap.closures[k]? = some c) :
    ∃ (declaring : Stage) (superclass : Option Nat),
      declaring.machine.MakesMethod superclass c.declaration k ∧ declaring.Before P x := by
  obtain ⟨y, s, hy, hlater, hold, hnew⟩ := h.brought
    (Q := fun y => y.machine.heap.HasMethod k) hk
    (fun _ ⟨_, _, _, hc, _⟩ => nomatch hc) fun _ _ => id
  obtain ⟨name, superclass, methods, hd, hle, f, -, b, hc'⟩ :=
    ((Machine.hasMethod_step s y.machine).2 k hnew).resolve_left hold
  obtain ⟨i, rfl⟩ := Nat.exists_eq_add_of_le hle
  cases hc.symm.trans (hlater.machine.lastsIn.closures hc')
  have hmethod := (Machine.closures_of_declares hd s i).symm.trans hc'
  obtain ⟨f', hf, hclosure⟩ := Option.map_eq_some_iff.1 hmethod
  cases hclosure
  exact ⟨y, superclass, .intro hd hf, hy, s, hlater⟩

/-- The function of a closure over the frame of a receiver is a method that was bound there. -/
theorem Met.closure_bound (h : x.Met P) {c : Closure} (hc : x.machine.heap.closures[k]? = some c)
    (hf : (Region.globals :: Event.regions x.log)[c.frame]? = some (.receiver f)) :
    ∃ (binding : Stage) (k' : Nat) (c' : Closure) (v : Value), binding.Before P x ∧
      binding.machine.Selects k' v ∧ binding.machine.heap.closures[k']? = some c' ∧
      k = binding.machine.heap.closures.size ∧ c'.declaration = c.declaration := by
  obtain ⟨y, s, hy, hlater, hold, hnew⟩ := h.brought
    (Q := fun y => y.machine.heap.closures[k]? = some c) hc (fun _ => nofun) fun _ _ => id
  have hregion {ρ : Region}
      (hρ : (Region.globals :: Event.regions (y.step s).log)[c.frame]? = some ρ) :
      ρ = .receiver f :=
    Option.some.inj ((hlater.region hρ).symm.trans hf)
  obtain hframe | ⟨hframe, name, fs, hρ⟩ | ⟨k', c', v, hs, hc', hk, rfl⟩ :=
    (y.machine.turn_step s).closure_made hnew hold
  · obtain ⟨ρ, hρ, hordinary⟩ := hy.ordinary.current.later (.step s .refl : y.Later P _)
    cases hregion (hframe ▸ hρ)
    cases hordinary
  · cases hregion (hframe ▸ hy.region_made hρ s)
  · exact ⟨y, k', c', v, ⟨hy, s, hlater⟩, hs, hc', hk, rfl⟩

/-- There is a record for every frame of a method in the frame of a receiver. -/
theorem Met.exists_methodCall (h : x.Met P)
    (hframe : (Region.globals :: Event.regions x.log)[frame]? = some (.call f))
    (hj : x.machine.heap.frames.enclosing? frame = some (some j))
    (hreceiver : (Region.globals :: Event.regions x.log)[j]? = some (.receiver f)) :
    ∃ declaring superclass receiver, x.MethodCall P declaring superclass f receiver frame := by
  have hne : frame ≠ Heap.globals := by
    rintro rfl
    cases hframe
  obtain ⟨calling, ⟨hcalling, s, hcalled⟩, hle, hcall⟩ := h.made hframe hne
  rcases (calling.machine.turn_step s).call_made hcall with
    ⟨k, c, as, hinvokes, hc, rfl, hn⟩ | ⟨cls, k, c, as, hinvokes, hk, hc, rfl, hn⟩
  · obtain rfl : frame = calling.machine.size := by omega
    have hlt := hcalling.machine.inRange.closures hc
    cases hj.symm.trans (hinvokes.enclosing_closure hc s hcalled.machine)
    obtain ⟨binding, k', c', receiver, hbinding, hselects, hc', rfl, hf⟩ :=
      hcalling.closure_bound hc
        (((Later.step s .refl).trans hcalled).region_of_lt hcalling hlt hreceiver)
    obtain ⟨declaring, superclass, hmakes, hdeclaring⟩ :=
      hbinding.1.method_made hselects.hasMethod hc'
    exact ⟨declaring, superclass, receiver,
      .bound (hf ▸ hmakes) hdeclaring hselects hbinding hinvokes ⟨hcalling, s, hcalled⟩⟩
  · obtain rfl : frame = calling.machine.size + 1 := by omega
    obtain ⟨declaring, superclass, hmakes, hdeclaring⟩ :=
      hcalling.method_made (Heap.hasMethod_of_method? hk) hc
    exact ⟨declaring, superclass, _, .created hmakes hdeclaring hinvokes hk ⟨hcalling, s, hcalled⟩⟩

end Stage

end LoxLang
