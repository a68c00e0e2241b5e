import LoxLang.Proofs.History
import LoxLang.Proofs.Lookups

/-!
# Steps of accepted programs

A machine that runs an accepted program takes a step to one that does so still (`Sound.step`):
nothing that the step needs is missing, and no fault comes of it.
-/

namespace LoxLang

/-- All of a machine but the task in hand: it is in a frame of a site, and what waits expects the
end of a task there. -/
structure Stands (V : Node → Site → Prop) (R : List Region) (m : Machine) (σ : Site) : Prop where
  heap : HeapOk V R m.heap
  frame : At R m.heap m.frame σ
  stack : StackOk V R m.heap m.stack.items m.frame σ

variable {V : Node → Site → Prop} {R : List Region} {m : Machine} {σ : Site}

theorem sound_error (hh : HeapOk V R m.heap) (t : Token) (e : RuntimeError) :
    Sound V R (m.error t e) := ⟨hh, .failing nofun⟩

theorem sound_enter {s : Setting} (hh : HeapOk V R m.heap)
    (hc : ControlOk V R m.heap task (w :: m.stack.items) frame) :
    Sound V R (m.enter s w frame task) := by
  unfold Machine.enter
  split
  · exact ⟨hh, .failing nofun⟩
  · exact ⟨hh, hc⟩

/-- The region of a frame that is made. -/
theorem getElem?_concat_size (hh : HeapOk V R h) (ρ : Region) :
    (R ++ [ρ])[h.frames.all.size]? = some ρ := by
  rw [← hh.size, List.getElem?_concat_length]

namespace Stands

theorem grow (hs : Stands V R m σ) (hg : Grows R m.heap R' h') (hh : HeapOk V R' h') :
    Stands V R' { m with heap := h' } σ :=
  ⟨hh, hs.frame.grows hg, hs.stack.grows hg⟩

theorem yield (hs : Stands V R m σ) (hv : ValueOk V R m.heap v) : Sound V R (m.yield v) :=
  ⟨hs.heap, .value hv hs.frame hs.stack⟩

theorem error (hs : Stands V R m σ) (t : Token) (e : RuntimeError) : Sound V R (m.error t e) :=
  sound_error hs.heap t e

/-- A part of the task is evaluated at the same site. -/
theorem await (hs : Stands V R m σ) (he : V (.expr e) σ) (hj : Joins V R m.heap w σ σ)
    (s : Setting) : Sound V R (m.await s w (.eval (σ.expr e))) :=
  sound_enter hs.heap (.eval he hs.frame (.waiting hj hs.stack))

theorem evaluate (hs : Stands V R m σ) (he : V (.expr e) σ) :
    Sound V R (m.proceed (.eval (σ.expr e))) :=
  ⟨hs.heap, .eval he hs.frame hs.stack⟩

/-! ## Variables -/

theorem read (hs : Stands V R m σ) (hr : σ.Reads r) : Sound V R (m.read r) := by
  unfold Machine.read
  cases hd : r.hops with
  | none =>
    dsimp only
    cases hv : m.heap.frames.get? Heap.globals r.name.lexeme with
    | none => exact hs.error ..
    | some v =>
      obtain ⟨j, -, hj⟩ := Option.bind_eq_some_iff.1 hv
      exact hs.yield (hs.heap.values hj)
  | some d =>
    obtain ⟨scope, hscope, hx, hp⟩ := hr d hd
    obtain ⟨j, v, -, hv, hget⟩ := hs.frame.getAt hscope hx hp
    simp only [hget]
    exact hs.yield (hs.heap.values hv)

theorem store (hs : Stands V R m σ) (hx : name.lexeme ≠ "super") (hv : ValueOk V R m.heap v)
    (frame : Nat) : Sound V R (m.store frame name v) := by
  have hg := Grows.define R m.heap frame name.lexeme v
  exact (hs.grow hg (hs.heap.define hx (hv.grows hg))).yield (hv.grows hg)

theorem assign (hs : Stands V R m σ) (hr : Reference.Unresolved r) (hv : ValueOk V R m.heap v) :
    Sound V R (m.assign (r.resolve σ.scopes) v) := by
  have hx : (r.resolve σ.scopes).name.lexeme ≠ "super" := hr.name.ne_super
  unfold Machine.assign
  cases hd : (r.resolve σ.scopes).hops with
  | none =>
    dsimp only
    cases m.heap.frames.holder? Heap.globals (r.resolve σ.scopes).name.lexeme with
    | none => exact hs.error ..
    | some frame => exact hs.store hx hv frame
  | some d =>
    rw [Reference.hops_resolve hr.hops] at hd
    obtain ⟨scope, hscope, -⟩ := Scope.contains_of_distance? hd
    obtain ⟨j, hj, -⟩ := hs.frame.frameAt hscope
    simp only [hj]
    exact hs.store hx hv j

/-! ## Operators -/

theorem add (hs : Stands V R m σ) (l : Value) (op : Token) (r : Value) :
    Sound V R (m.add l op r) := by
  unfold Machine.add
  split
  · exact hs.yield trivial
  · exact hs.yield trivial
  · exact hs.yield trivial
  · exact hs.error ..

theorem binary (hs : Stands V R m σ) (hop : op.kind.isBinary) (l r : Value) :
    Sound V R (m.binary l op r) := by
  unfold Machine.binary
  split
  · exact hs.yield trivial
  · exact hs.yield trivial
  · exact hs.add ..
  · next kind hne heq hplus =>
    split
    · next x y =>
      obtain ⟨v, hv, hok⟩ : ∃ v, Machine.arithmetic? op.kind x y = some v ∧
          ValueOk V R m.heap v := by
        revert hop hne heq hplus
        cases op.kind <;> intro hop hne heq hplus <;>
          first
          | exact ⟨_, rfl, trivial⟩
          | contradiction
      rw [hv]
      exact hs.yield hok
    · exact hs.error ..

theorem unary (hs : Stands V R m σ) (hop : op.kind.isUnary) (v : Value) :
    Sound V R (m.unary op v) := by
  unfold Machine.unary
  split
  · exact hs.yield trivial
  · split
    · exact hs.yield trivial
    · exact hs.error ..
  · next hbang hminus =>
    revert hop hbang hminus
    cases op.kind <;> intro hop hbang hminus <;> contradiction

/-! ## Methods -/

/-- Around a bound method, the frame of its receiver stands for the scope of `this`. -/
theorem callable_encloseReceiver (hh : HeapOk V R h) (hw : Walked V) (hm : Method V R h c)
    (receiver : Value) :
    Callable V (R ++ [.receiver c.declaration]) (h.encloseReceiver c receiver).2
      { c with frame := (h.encloseReceiver c receiver).1 } := by
  cases hm with
  | @intro f σ Γ ρs frame _ hv hs hr hm =>
    refine .intro hv ?_ fun _ => by rw [hs]; rfl
    unfold At
    rw [hs, hr, (hw.fits hv).pending_eq_none rfl]
    refine .inner (Frames.frame?_make_self ..) (getElem?_concat_size hh _) (fun x hx _ => ?_)
      (hm.grows (Grows.enclose ..))
    obtain ⟨rfl, -⟩ := Bindings.of_get?_single hx
    rfl

theorem heapOk_encloseReceiver (hh : HeapOk V R h) (hv : ValueOk V R h receiver) (c : Closure) :
    HeapOk V (R ++ [.receiver c.declaration]) (h.encloseReceiver c receiver).2 := by
  refine hh.enclose _ _ _ (fun x v hx => ?_) nofun
  obtain ⟨-, rfl⟩ := Bindings.of_get?_single hx
  exact hv

theorem bindMethod (hs : Stands V R m σ) (hw : Walked V) (hc : m.heap.closures[k]? = some c)
    (hm : Method V R m.heap c) (hv : ValueOk V R m.heap receiver) :
    Sound V (R ++ Event.regions (m.bindMethodEvents k receiver)) (m.bindMethod k receiver) := by
  have hh := heapOk_encloseReceiver hs.heap hv c
  have hcall := callable_encloseReceiver hs.heap hw hm receiver
  have hg := Grows.addClosure (R ++ [.receiver c.declaration])
    (m.heap.encloseReceiver c receiver).2 { c with frame := (m.heap.encloseReceiver c receiver).1 }
  have hs' := (hs.grow (Grows.enclose ..) hh).grow hg (hh.addClosure _)
  simp only [Machine.bindMethodEvents, Machine.bindMethod, hc]
  exact hs'.yield ⟨_, Array.getElem?_push_size, hcall.grows hg⟩

theorem property (hs : Stands V R m σ) (hw : Walked V) (hv : ValueOk V R m.heap (.object object))
    (name : Token) :
    Sound V (R ++ Event.regions (m.propertyEvents object name)) (m.property object name) := by
  obtain ⟨o, ho⟩ : ∃ o, m.heap.instances[object]? = some o := ⟨_, Array.getElem?_eq_getElem hv⟩
  simp only [Machine.property, Machine.propertyEvents, ho]
  cases hf : o.fields.get? name.lexeme with
  | some v => simpa using hs.yield (hs.heap.fields ho hf)
  | none =>
    cases hk : m.heap.method? o.cls name.lexeme with
    | none => simpa using hs.error ..
    | some k =>
      obtain ⟨c, hc, hm⟩ := hs.heap.method? hk
      exact hs.bindMethod hw hc hm hv

theorem superMethod (hs : Stands V R m σ) (hw : Walked V) (hv : V (.expr (.super k method)) σ)
    (he : σ.expr (.super k method) = .super keyword method) :
    Sound V (R ++ Event.regions (m.superMethodEvents keyword method))
      (m.superMethod keyword method) := by
  have hfits := hw.fits hv
  obtain ⟨d, f, name, fs, hk, hthis, hsuper, -, hρ⟩ := hfits.reads_super
  cases he.symm.trans hk
  have hp : σ.pending = none := hfits.pending_eq_none rfl
  obtain ⟨j, hj, hm⟩ := hs.frame.frameAt hsuper
  obtain ⟨c, hc⟩ : ∃ c, m.heap.frames.lookup? j "super" = some (.cls c) := by
    cases hρs : σ.regions.drop (d + 1) with
    | nil => rw [hρs] at hm; cases hm
    | cons ρ ρs =>
      rw [hρs] at hm
      have : σ.regions[d + 1]? = some ρ := by rw [← List.head?_drop, hρs]; rfl
      cases hρ.symm.trans this
      cases hm with
      | inner _ hj' => exact hs.heap.supers hj'
  obtain ⟨i, v, -, hi, hget⟩ := hs.frame.getAt (x := "this") hthis rfl (by rw [hp]; nofun)
  simp only [Machine.superMethod, Machine.superMethodEvents, Nat.add_sub_cancel, hget,
    Frames.getAt_of_frameAt hj hc]
  cases hmethod : m.heap.method? c method.lexeme with
  | none => simpa using hs.error ..
  | some k =>
    obtain ⟨c, hc, hm⟩ := hs.heap.method? hmethod
    exact hs.bindMethod hw hc hm (hs.heap.values hi)

end Stands

/-! ## Classes -/

/-- A resolved method is what the resolver made of one of the methods. -/
theorem mem_resolveMethods (h : g ∈ (resolveMethods around scopes fs).1) :
    ∃ f ∈ fs, g = (f.resolve ⟨some (.ofMethod f.name.lexeme), around.classKind⟩ scopes).1 := by
  induction fs with
  | nil => cases h
  | cons f fs ih =>
    simp only [resolveMethods, List.mem_cons] at h
    rcases h with rfl | h
    · exact ⟨f, List.mem_cons_self, rfl⟩
    · obtain ⟨f', hf', hg⟩ := ih h
      exact ⟨f', List.mem_cons_of_mem _ hf', hg⟩

/-- The closures of methods are methods, in a frame of the scopes around them. -/
theorem addMethods_sound (methods : Bindings Nat) (hh : HeapOk V R h)
    (hms : ∀ g ∈ fs, ∀ b, Method V R h ⟨g, frame, b⟩)
    (hprev : ∀ x k, methods.get? x = some k → ∃ c, h.closures[k]? = some c ∧ Method V R h c) :
    let (methods', h') := Machine.addMethods frame fs methods h
    HeapOk V R h' ∧ Grows R h R h' ∧
      ∀ x k, methods'.get? x = some k → ∃ c, h'.closures[k]? = some c ∧ Method V R h' c := by
  induction fs generalizing methods h with
  | nil => exact ⟨hh, .refl R h, hprev⟩
  | cons f fs ih =>
    have hg := Grows.addClosure R h ⟨f, frame, f.name.lexeme = Heap.initName⟩
    have hf := (hms f List.mem_cons_self (f.name.lexeme = Heap.initName)).grows hg
    have hrest := ih (methods.insert f.name.lexeme h.closures.size)
      (hh.addClosure ⟨f, frame, f.name.lexeme = Heap.initName⟩)
      (fun g hm b => (hms g (List.mem_cons_of_mem _ hm) b).grows hg) ?_
    · exact ⟨hrest.1, hg.trans hrest.2.1, hrest.2.2⟩
    · intro x k hk
      by_cases hx : x = f.name.lexeme
      · rw [hx, Bindings.get?_insert_self] at hk
        cases hk
        exact ⟨_, Array.getElem?_push_size, hf⟩
      · rw [Bindings.get?_insert_of_ne hx] at hk
        obtain ⟨c, hc, hm⟩ := hprev x k hk
        exact ⟨c, hg.closures hc, hm.grows hg⟩

/-- What is left to do of a class once its methods have their frame. -/
theorem sound_addClass {name : Token} (hh : HeapOk V R h)
    (hms : ∀ g ∈ fs, ∀ b, Method V R h ⟨g, frame, b⟩)
    (hx : name.lexeme ≠ "super") (ha : At R h i σ) (hs : StackOk V R h stack.items i σ) :
    Sound V R
      (let (methods, heap) := Machine.addMethods frame fs [] h
      let (c, heap) := heap.addClass ⟨name.lexeme, superclass, methods⟩
      ⟨.value .nil, stack, i, heap.define i name.lexeme (.cls c), printed, callToken⟩) := by
  obtain ⟨hh', hg, hmethods⟩ := addMethods_sound [] hh hms nofun
  have hclass := Grows.addClass R (Machine.addMethods frame fs [] h).2
    ⟨name.lexeme, superclass, (Machine.addMethods frame fs [] h).1⟩
  have hdefine := Grows.define R (Heap.addClass (Machine.addMethods frame fs [] h).2
    ⟨name.lexeme, superclass, (Machine.addMethods frame fs [] h).1⟩).2 i name.lexeme
    (.cls (Machine.addMethods frame fs [] h).2.classes.size)
  have hall := hg.trans (hclass.trans hdefine)
  exact {
    heap := (hh'.addClass hmethods).define hx trivial
    control := .value trivial (ha.grows hall) (hs.grows hall) }

/-- A class is declared where its name is the only one that may be missing. -/
theorem sound_declareClass (superclass : Option Nat) (hw : Walked V)
    (hv : V (.stmt (.classDecl name r fs)) σ)
    (hh : HeapOk V R m.heap)
    (hm : Mirrors R m.heap.frames (some name.lexeme) m.frame (Scope.introduce name σ.scopes)
      σ.regions)
    (hs : StackOk V R m.heap m.stack.items m.frame (σ.introduce name))
    (hr : superclass.isSome = r.isSome) :
    Sound V (R ++ Event.regions
        (m.declareClassEvents name superclass ((σ.inClass name r.isSome).methods fs)))
      (m.declareClass name superclass ((σ.inClass name r.isSome).methods fs)) := by
  have hfits := hw.fits hv
  have hx : name.lexeme ≠ "super" := by
    have := hfits.wellFormed
    simp only [Node.WellFormed, Stmt.WellFormed] at this
    exact this.1.ne_super
  have hp : σ.pending = none := hfits.pending_eq_none rfl
  have hg := Grows.define R m.heap m.frame name.lexeme .nil
  have hh' := hh.define (i := m.frame) (v := .nil) hx trivial
  have ha : At R (m.heap.define m.frame name.lexeme .nil) m.frame (σ.introduce name) := by
    unfold At
    rw [show (σ.introduce name).pending = none from hp]
    exact hm.define .nil
  rw [Machine.declareClass_eq hm.lt_size]
  cases superclass with
  | none =>
    obtain rfl : r = none := by cases r <;> simp_all
    simp only [Machine.declareClassEvents, Event.declare, Event.regions_append,
      Event.regions_stored, Event.regions_nil, List.append_nil]
    refine sound_addClass hh' (fun g hgm b => ?_) hx ha (hs.grows hg)
    obtain ⟨f, hf, rfl⟩ := mem_resolveMethods hgm
    exact .intro (hw.asks hv (.method hf)) rfl rfl (hm.define .nil)
  | some c =>
    obtain ⟨r, rfl⟩ := Option.isSome_iff_exists.1 hr.symm
    let ρ : Region := .superclass name ((σ.inClass name true).methods fs)
    have hg' := Grows.enclose R (m.heap.define m.frame name.lexeme .nil) ρ m.frame
      [("super", .cls c)]
    have hh'' := hh'.enclose ρ m.frame [("super", .cls c)]
      (fun x v hv => (Bindings.of_get?_single hv).2 ▸ trivial)
      fun _ _ _ => ⟨c, rfl⟩
    simp only [Machine.declareClassEvents, Event.declare, Event.regions_append,
      Event.regions_stored, Event.regions_made, Event.regions_nil, List.append_nil]
    refine sound_addClass hh'' (fun g hgm b => ?_) hx (ha.grows hg') (hs.grows (hg.trans hg'))
    obtain ⟨f, hf, rfl⟩ := mem_resolveMethods hgm
    refine .intro (hw.asks hv (.method hf)) rfl rfl ?_
    refine .inner (Frames.frame?_make_self ..) (getElem?_concat_size hh' ρ) (fun x hx _ => ?_)
      ((hm.define .nil).grows hg')
    obtain ⟨rfl, -⟩ := Bindings.of_get?_single hx
    rfl

/-! ## Calls -/

namespace Stands

theorem invoke (hs : Stands V R m σ) (hw : Walked V) (hc : Callable V R m.heap c)
    (hargs : ∀ v ∈ arguments, ValueOk V R m.heap v)
    (hlen : arguments.length = c.declaration.parameters.length) (result : CallResult)
    (hr : ResultOk m.heap result) (s : Setting) :
    Sound V (R ++ [.call c.declaration]) (m.invoke s c arguments result) := by
  have hg := Grows.enclose R m.heap (.call c.declaration) c.frame
    (Machine.bindParameters c.declaration.parameters arguments [])
  have hh := hs.heap.enclose (.call c.declaration) c.frame
    (Machine.bindParameters c.declaration.parameters arguments []) (fun x v hv => by
      rcases Machine.mem_of_bindParameters hv with hv | hv
      · exact hargs v hv
      · cases hv) nofun
  have hcaller := hs.grow hg hh
  cases hc with
  | @intro f σ' frame _ hv ha _ =>
    obtain ⟨name, ps, ss⟩ := f
    have hbody := hw.asks hv .body
    have hp : σ'.pending = none := (hw.fits hv).pending_eq_none rfl
    rw [Site.function_mk] at hcaller hh hg hlen ⊢
    have hlen : arguments.length = ps.length := hlen
    obtain ⟨inner, hi, -, hnames⟩ := Scope.introduceEach_scope ps [] σ'.scopes
    have hat : At (R ++ [.call (σ'.function (.mk name ps ss))])
        (m.heap.enclose frame (Machine.bindParameters ps arguments [])).2 m.size
        (σ'.inBody (.mk name ps ss)) := by
      unfold At
      rw [show (σ'.inBody (.mk name ps ss)).scopes = inner :: σ'.scopes from hi,
        show (σ'.inBody (.mk name ps ss)).pending = none from hp]
      have hm : Mirrors R m.heap.frames none frame σ'.scopes σ'.regions := hp ▸ ha
      refine .inner (Frames.frame?_make_self ..) (getElem?_concat_size hs.heap _) (fun x hx _ => ?_)
        (hm.grows (Grows.enclose ..))
      rw [Machine.contains_bindParameters hlen]
      refine .inl ?_
      obtain h | h := (hnames x).1 (by simp [Bindings.contains, hx])
      · exact h
      · cases h
    rw [Site.function_mk] at hat
    exact sound_enter hh (.run hbody hat (.activation (hr.grows hg) hcaller.frame hcaller.stack))

/-- A new instance is set up by its initializer, if its class has one. -/
theorem instantiate (hs : Stands V R m σ) (hw : Walked V)
    (hargs : ∀ v ∈ arguments, ValueOk V R m.heap v)
    (hlen : m.heap.arity? (.cls cls) = some arguments.length) (s : Setting) :
    Sound V (R ++ Event.regions (m.instantiateEvents cls arguments))
      (m.instantiate s cls arguments) := by
  have hg := Grows.addInstance R m.heap cls
  have hh := hs.heap.addInstance cls
  have hobject : ValueOk V R (m.heap.addInstance cls).2 (.object m.heap.instances.size) := by
    simp [ValueOk, Heap.addInstance]
  simp only [Machine.instantiate, Machine.instantiateEvents]
  cases hk : m.heap.method? cls Heap.initName with
  | none =>
    rw [Event.regions_nil, List.append_nil]
    exact (hs.grow hg hh).yield hobject
  | some k =>
    obtain ⟨c, hc, hm⟩ := hs.heap.method? hk
    simp only [hc]
    have hlen : arguments.length = c.declaration.parameters.length := by
      simpa [Heap.arity?, hk, Heap.closureArity, hc] using hlen.symm
    have hh' := heapOk_encloseReceiver hh hobject c
    have hcall := callable_encloseReceiver hh hw (hm.grows hg) (.object m.heap.instances.size)
    have hg' := Grows.enclose R (m.heap.addInstance cls).2 (.receiver c.declaration) c.frame
      [("this", .object m.heap.instances.size)]
    have hs' := (hs.grow hg hh).grow hg' hh'
    rw [Event.regions_append, Event.regions_binding, Event.regions_calling, ← List.append_assoc]
    exact hs'.invoke hw hcall (fun v hv => (hargs v hv).grows (hg.trans hg')) hlen
      (.created m.heap.instances.size) (hobject.grows hg') s

theorem callValue (hs : Stands V R m σ) (hw : Walked V) (hv : ValueOk V R m.heap callee)
    (hargs : ∀ v ∈ arguments, ValueOk V R m.heap v)
    (hlen : m.heap.arity? callee = some arguments.length) (s : Setting) :
    Sound V (R ++ Event.regions (m.callValueEvents callee arguments))
      (m.callValue s callee arguments) := by
  cases callee with
  | clock =>
    rw [show Event.regions (m.callValueEvents .clock arguments) = [] from rfl, List.append_nil]
    exact (hs.grow (.tick R m.heap) hs.heap.tick).yield (v := .number _) trivial
  | cls c => exact hs.instantiate hw hargs hlen s
  | closure i =>
    obtain ⟨c, hc, hcall⟩ := hv
    simp only [Machine.callValue, Machine.callValueEvents, hc, Event.regions_calling]
    have hlen : arguments.length = c.declaration.parameters.length := by
      simpa [Heap.arity?, Heap.closureArity, hc] using hlen.symm
    refine hs.invoke hw hcall hargs hlen _ ?_ s
    split
    · next hinit =>
      cases hcall with
      | @intro f σ' frame _ hv ha hthis =>
        have hp : σ'.pending = none := (hw.fits hv).pending_eq_none rfl
        obtain ⟨Γ, hΓ⟩ := List.head?_eq_some_iff.1 (hthis hinit)
        unfold At at ha
        rw [hΓ, hp] at ha
        generalize σ'.regions = ρs at ha
        cases ha with
        | inner hf _ hbs => exact ⟨_, _, hf, hbs "this" rfl (Option.some_ne_none _).symm⟩
    · trivial
  | _ => cases hlen

theorem call (hs : Stands V R m σ) (hw : Walked V) (hv : ValueOk V R m.heap callee)
    (hargs : ∀ v ∈ arguments, ValueOk V R m.heap v) (s : Setting) (paren : Token) :
    Sound V (R ++ Event.regions (m.callEvents callee arguments))
      (m.call s callee paren arguments) := by
  simp only [Machine.call, Machine.callEvents]
  cases ha : m.heap.arity? callee with
  | none => simpa using hs.error ..
  | some n =>
    by_cases hn : arguments.length = n
    · have hs' : Stands V R { m with callToken := some paren } σ := ⟨hs.heap, hs.frame, hs.stack⟩
      subst hn
      simp only [↓reduceIte]
      exact hs'.callValue hw hv hargs ha s
    · have hne : ¬n = arguments.length := fun e => hn e.symm
      simpa [hn, hne] using hs.error ..

end Stands

/-- A call ends: its answer arrives in the frame of the caller. -/
theorem sound_finishCall (hh : HeapOk V R m.heap) (hv : ValueOk V R m.heap v)
    (hr : ResultOk m.heap result) (ha : At R m.heap caller σ)
    (hs : StackOk V R m.heap m.stack.items caller σ) :
    Sound V R (m.finishCall caller result v) := by
  have hs' : Stands V R { m with frame := caller } σ := ⟨hh, ha, hs⟩
  cases result with
  | returned => exact hs'.yield hv
  | created object => exact hs'.yield hr
  | receiver frame =>
    obtain ⟨outer, bs, hf, hbs⟩ := hr
    obtain ⟨v, hv⟩ := Frames.lookup?_of_contains hf hbs
    simp only [Machine.finishCall, Frames.getAt_of_frameAt (Frames.frameAt_zero hf) hv]
    exact hs'.yield (hh.values hv)

/-! ## Tasks -/

namespace Stands

theorem evaluateNode (hs : Stands V R m σ) (hw : Walked V) (he : V (.expr e) σ)
    (hc : m.control = .eval (σ.expr e)) (s : Setting) :
    Sound V (R ++ Event.regions m.events) (m.evaluate s (σ.expr e)) := by
  have hfits := hw.fits he
  have hwf := hfits.wellFormed
  simp only [Machine.events, hc]
  cases e with
  | missing =>
    simp only [Node.WellFormed, Expr.WellFormed] at hwf
  | super keyword method =>
    simp only [Site.expr_super]
    exact hs.superMethod hw he (σ.expr_super ..)
  | this keyword =>
    obtain ⟨d, f, hthis, hreads, -⟩ := hfits.reads_this
    simp only [hthis, Event.regions_nil, List.append_nil]
    exact hs.read hreads
  | «variable» target =>
    simp only [Site.expr_variable, Event.regions_nil, List.append_nil]
    exact hs.read hfits.reads_variable
  | literal c =>
    simp only [Site.expr_literal, Event.regions_nil, List.append_nil]
    cases c <;> exact hs.yield trivial
  | grouping inner =>
    simp only [Site.expr_grouping, Event.regions_nil, List.append_nil]
    exact hs.evaluate (hw.asks he .grouping)
  | assign target value =>
    simp only [Site.expr_assign, Event.regions_nil, List.append_nil]
    exact hs.await (hw.asks he .assignValue) (.assign he) s
  | binary l op r =>
    simp only [Node.WellFormed, Expr.WellFormed] at hwf
    simp only [Site.expr_binary, Event.regions_nil, List.append_nil]
    exact hs.await (hw.asks he .binaryLeft) (.binaryRight hwf.2.1 (hw.asks he .binaryRight)) s
  | call f paren es =>
    simp only [Site.expr_call, Event.regions_nil, List.append_nil]
    exact hs.await (hw.asks he .callee) (.callee (hw.asks he .arguments)) s
  | get e name =>
    simp only [Site.expr_get, Event.regions_nil, List.append_nil]
    exact hs.await (hw.asks he .getObject) .get s
  | logical l op r =>
    simp only [Site.expr_logical, Event.regions_nil, List.append_nil]
    exact hs.await (hw.asks he .logicalLeft) (.logical (hw.asks he .logicalRight)) s
  | set e name v =>
    simp only [Site.expr_set, Event.regions_nil, List.append_nil]
    exact hs.await (hw.asks he .setObject) (.setObject (hw.asks he .setValue)) s
  | unary op e =>
    simp only [Node.WellFormed, Expr.WellFormed] at hwf
    simp only [Site.expr_unary, Event.regions_nil, List.append_nil]
    exact hs.await (hw.asks he .operand) (.unary hwf.1) s

end Stands

/-- A name gets its value in a frame that may lack it. -/
theorem sound_define (hh : HeapOk V R m.heap) (hx : IsIdentifier name.lexeme)
    (hp : σ.pending = none)
    (hm : Mirrors R m.heap.frames (some name.lexeme) m.frame (Scope.introduce name σ.scopes)
      σ.regions)
    (hs : StackOk V R m.heap m.stack.items m.frame (σ.introduce name))
    (hv : ValueOk V R (m.heap.define m.frame name.lexeme v) v) :
    Sound V R (m.define name v) := by
  refine ⟨hh.define hx.ne_super hv, .value trivial ?_ (hs.grows (Grows.define ..))⟩
  show Mirrors R _ σ.pending _ _ _
  rw [hp]
  exact hm.define v

theorem sound_block (hh : HeapOk V R m.heap) (hw : Walked V) (ht : V (.stmt (.block ss)) σ)
    (ha : At R m.heap m.frame σ) (hs : StackOk V R m.heap m.stack.items m.frame σ)
    (s : Setting) :
    Sound V (R ++ [.block ((σ.inBlock ss).stmts ss)])
      (m.execute s (.block ((σ.inBlock ss).stmts ss))) := by
  have hp : σ.pending = none := (hw.fits ht).pending_eq_none rfl
  have hg := Grows.enclose R m.heap (.block ((σ.inBlock ss).stmts ss)) m.frame []
  have hat : At (R ++ [.block ((σ.inBlock ss).stmts ss)]) (m.heap.enclose m.frame []).2
      m.heap.frames.all.size (σ.inBlock ss) := by
    show Mirrors _ _ σ.pending _ _ _
    rw [hp]
    exact .inner (Frames.frame?_make_self ..) (getElem?_concat_size hh _) nofun
      (hp ▸ ha.grows hg : Mirrors _ _ none _ _ _)
  have hleave : StackOk V (R ++ [.block ((σ.inBlock ss).stmts ss)]) (m.heap.enclose m.frame []).2
      (.leave m.frame :: m.stack.items) m.heap.frames.all.size ((σ.inBlock ss).afterAll ss) := by
    have haround : ((σ.inBlock ss).afterAll ss).around = σ.around := rfl
    exact .leave haround (ha.grows hg) (hs.grows hg)
  exact sound_enter (hh.enclose _ _ _ nofun nofun)
    (.run (hw.asks ht .block) hat hleave)

theorem sound_function (hh : HeapOk V R m.heap) (hw : Walked V) (ht : V (.stmt (.function f)) σ)
    (ha : At R m.heap m.frame σ)
    (hs : StackOk V R m.heap m.stack.items m.frame (σ.introduce f.name)) (s : Setting) :
    Sound V R (m.execute s (.function ((σ.inFunction f.name).function f))) := by
  have hfits := hw.fits ht
  have hp : σ.pending = none := hfits.pending_eq_none rfl
  have hx : IsIdentifier f.name.lexeme := by
    have hwf := hfits.wellFormed
    obtain ⟨name, ps, ss⟩ := f
    simp only [Node.WellFormed, Stmt.WellFormed, Function.WellFormed] at hwf
    exact hwf.1
  let c : Closure := ⟨(σ.inFunction f.name).function f, m.frame, false⟩
  have hg := Grows.addClosure R m.heap c
  have hm : Mirrors R (m.heap.addClosure c).2.frames (some f.name.lexeme) m.frame
      (Scope.introduce f.name σ.scopes) σ.regions :=
    (hp ▸ ha.grows hg : Mirrors _ _ none _ _ _).introduce f.name
  have hcall : Callable V R ((m.heap.addClosure c).2.define m.frame f.name.lexeme
      (.closure m.heap.closures.size)) c := by
    refine .intro (hw.asks ht .function) ?_ fun h => absurd h Bool.false_ne_true
    show Mirrors R _ σ.pending _ _ _
    rw [hp]
    exact hm.define _
  simp only [Machine.execute, Site.name_function]
  exact sound_define (m := { m with heap := (m.heap.addClosure c).2 }) (hh.addClosure c) hx hp hm
    (hs.grows hg) ⟨c, Array.getElem?_push_size, hcall⟩

theorem sound_execute (hh : HeapOk V R m.heap) (hw : Walked V) (ht : V (.stmt t) σ)
    (ha : At R m.heap m.frame σ) (hs : StackOk V R m.heap m.stack.items m.frame (σ.after t))
    (s : Setting) :
    Sound V (R ++ Event.regions (m.executeEvents (σ.stmt t))) (m.execute s (σ.stmt t)) := by
  have hfits := hw.fits ht
  have hwf := hfits.wellFormed
  have hf := hfits.findings
  have hp : σ.pending = none := hfits.pending_eq_none rfl
  have hm : Mirrors R m.heap.frames none m.frame σ.scopes σ.regions := hp ▸ ha
  rw [Site.after_eq] at hs
  cases t with
  | missing =>
    have hst : Stands V R m σ := ⟨hh, ha, hs⟩
    simp only [Site.stmt_missing, Machine.executeEvents, Event.regions_nil, List.append_nil]
    exact hst.yield (v := .nil) trivial
  | block ss =>
    simp only [Site.stmt_block, Machine.executeEvents, Event.regions_made, Event.regions_nil]
    exact sound_block hh hw ht ha hs s
  | classDecl name superclass methods =>
    simp only [Site.stmt_classDecl]
    cases superclass with
    | none => exact sound_declareClass none hw ht hh (hm.introduce name) hs rfl
    | some r =>
      simp only [Machine.executeEvents, Option.map_some, Event.regions_nil, List.append_nil]
      have hsuper := ControlOk.eval (hw.asks ht .superclass) (hm.introduce name)
        (.waiting (.superclass r.name ht) hs)
      rw [Site.expr_variable] at hsuper
      exact sound_enter hh hsuper
  | expression e =>
    have hst : Stands V R m σ := ⟨hh, ha, hs⟩
    simp only [Site.stmt_expression, Machine.executeEvents, Event.regions_nil, List.append_nil]
    exact hst.evaluate (hw.asks ht .expression)
  | function f =>
    simp only [Site.stmt_function, Machine.executeEvents, Event.declare, Event.regions_stored,
      Event.regions_nil, List.append_nil]
    exact sound_function hh hw ht ha hs s
  | ifElse c t e =>
    simp only [Node.WellFormed, Stmt.WellFormed] at hwf
    simp only [Stmt.declared, hwf.2.1.2, hwf.2.2.2, List.append_nil, Scope.introduceEach_nil] at hs
    have hst : Stands V R m σ := ⟨hh, ha, hs⟩
    simp only [Site.stmt_ifElse, Site.after_of_contained hwf.2.1.2, Machine.executeEvents,
      Event.regions_nil, List.append_nil]
    exact hst.await (hw.asks ht .ifCondition) (.branch ht) s
  | print e =>
    have hst : Stands V R m σ := ⟨hh, ha, hs⟩
    simp only [Site.stmt_print, Machine.executeEvents, Event.regions_nil, List.append_nil]
    exact hst.await (hw.asks ht .print) .print s
  | returning k e =>
    have hst : Stands V R m σ := ⟨hh, ha, hs⟩
    have hfun : σ.around.function.isSome := by
      simp only [Node.findings, Stmt.resolve, Enclosing.returnFindings, List.append_eq_nil_iff,
        findingIf_eq_nil] at hf
      simpa using hf.1.1
    cases e with
    | none =>
      simp only [Site.stmt_returning_none, Machine.executeEvents, Event.regions_nil,
        List.append_nil]
      exact ⟨hh, .returning (v := .nil) trivial hfun hs⟩
    | some e =>
      simp only [Site.stmt_returning_some, Machine.executeEvents, Event.regions_nil,
        List.append_nil]
      exact hst.await (hw.asks ht .returnValue) (.returnValue hfun) s
  | varDecl name e =>
    cases e with
    | none =>
      simp only [Node.WellFormed, Stmt.WellFormed] at hwf
      simp only [Site.stmt_varDecl_none, Machine.executeEvents, Event.declare,
        Event.regions_stored, Event.regions_nil, List.append_nil]
      exact sound_define hh hwf.1 hp (hm.introduce name) hs trivial
    | some e =>
      simp only [Site.stmt_varDecl_some, Machine.executeEvents, Event.regions_nil,
        List.append_nil]
      have hat : At R m.heap m.frame (σ.inInitializer name) := by
        show Mirrors R _ σ.pending _ _ _
        rw [hp]
        exact hm.declare name.lexeme
      exact sound_enter hh (.eval (hw.asks ht .initializer) hat (.waiting (.define ht) hs))
  | whileLoop c b =>
    simp only [Node.WellFormed, Stmt.WellFormed] at hwf
    simp only [Stmt.declared, hwf.2.2, Scope.introduceEach_nil] at hs
    have hst : Stands V R m σ := ⟨hh, ha, hs⟩
    simp only [Site.stmt_whileLoop, Machine.executeEvents, Event.regions_nil, List.append_nil]
    exact hst.await (hw.asks ht .whileCondition) (.loopTest ht) s

/-! ## Steps -/

theorem Joins.around (h : Joins V R h w σ σ') : σ.around = σ'.around := by
  cases h <;> rfl

theorem Stands.evaluateArguments (hs : Stands V R m σ) (hw : Walked V)
    (hv : ValueOk V R m.heap callee) (hargs : ∀ v ∈ before, ValueOk V R m.heap v)
    (hes : V (.exprs es) σ) (s : Setting) (paren : Token) :
    Sound V
      (R ++ Event.regions (if σ.exprs es = [] then m.callEvents callee before.reverse else []))
      (m.evaluateArguments s callee paren before (σ.exprs es)) := by
  cases es with
  | nil => exact hs.call hw hv (fun v hm => hargs v (List.mem_reverse.1 hm)) s paren
  | cons e es =>
    simp only [Site.exprs_cons, reduceCtorEq, ↓reduceIte, Event.regions_nil, List.append_nil]
    exact hs.await (hw.asks hes .firstExpr) (.argument hv hargs (hw.asks hes .otherExprs)) s

/-- A value arrives at what waits for it. -/
theorem sound_receive (hh : HeapOk V R m.heap) (hw : Walked V) (hv : ValueOk V R m.heap v)
    (ha : At R m.heap m.frame σ) (hs : StackOk V R m.heap (w :: m.stack.items) m.frame σ)
    (s : Setting) :
    Sound V (R ++ Event.regions (m.receiveEvents v w)) (m.receive s v w) := by
  cases hs with
  | leave _ ha' hs' =>
    simp only [Machine.receiveEvents, Event.regions_nil, List.append_nil]
    exact ⟨hh, .value (v := .nil) trivial ha' hs'⟩
  | activation hr ha' hs' =>
    simp only [Machine.receiveEvents, Event.regions_nil, List.append_nil]
    exact sound_finishCall hh trivial hr ha' hs'
  | waiting hj hs' =>
    cases hj with
    | assign he =>
      have hst : Stands V R m σ := ⟨hh, ha, hs'⟩
      have hwf := (hw.fits he).wellFormed
      simp only [Node.WellFormed, Expr.WellFormed] at hwf
      simp only [Machine.receiveEvents, Machine.regions_assignEvents, List.append_nil]
      exact hst.assign hwf.1 hv
    | binaryRight hop he =>
      have hst : Stands V R m σ := ⟨hh, ha, hs'⟩
      simp only [Machine.receiveEvents, Event.regions_nil, List.append_nil]
      exact hst.await he (.binary hop hv) s
    | binary hop hl =>
      have hst : Stands V R m σ := ⟨hh, ha, hs'⟩
      simp only [Machine.receiveEvents, Event.regions_nil, List.append_nil]
      exact hst.binary hop _ _
    | callee hes =>
      have hst : Stands V R m σ := ⟨hh, ha, hs'⟩
      rw [Machine.receiveEvents_callee]
      exact hst.evaluateArguments hw hv (List.forall_mem_nil _) hes s _
    | argument hc hb hes =>
      have hst : Stands V R m σ := ⟨hh, ha, hs'⟩
      rw [Machine.receiveEvents_argument]
      exact hst.evaluateArguments hw hc (List.forall_mem_cons.2 ⟨hv, hb⟩) hes s _
    | get =>
      have hst : Stands V R m σ := ⟨hh, ha, hs'⟩
      cases v with
      | object i => exact hst.property hw hv _
      | _ =>
        simp only [Machine.receiveEvents, Event.regions_nil, List.append_nil]
        exact hst.error ..
    | logical he =>
      have hst : Stands V R m σ := ⟨hh, ha, hs'⟩
      simp only [Machine.receiveEvents, Machine.receive, Event.regions_nil, List.append_nil]
      generalize (if _ = TokenKind.kwOr then v.truthy else !v.truthy) = b
      cases b with
      | true => exact hst.yield hv
      | false => exact hst.evaluate he
    | setObject he =>
      have hst : Stands V R m σ := ⟨hh, ha, hs'⟩
      simp only [Machine.receiveEvents, Event.regions_nil, List.append_nil]
      cases v with
      | object i => exact hst.await he .setValue s
      | _ => exact hst.error ..
    | @setValue object name _ =>
      have hst : Stands V R m σ := ⟨hh, ha, hs'⟩
      have hg := Grows.setField R m.heap object name.lexeme v
      simp only [Machine.receiveEvents, Event.regions_nil, List.append_nil]
      exact (hst.grow hg (hh.setField hv)).yield (hv.grows hg)
    | unary hop =>
      have hst : Stands V R m σ := ⟨hh, ha, hs'⟩
      simp only [Machine.receiveEvents, Event.regions_nil, List.append_nil]
      exact hst.unary hop _
    | print =>
      have hst : Stands V R m σ := ⟨hh, ha, hs'⟩
      simp only [Machine.receiveEvents, Event.regions_nil, List.append_nil]
      exact ⟨hh, .value (v := .nil) trivial ha hs'⟩
    | returnValue hf =>
      simp only [Machine.receiveEvents, Event.regions_nil, List.append_nil]
      exact ⟨hh, .returning hv hf hs'⟩
    | define ht =>
      have hfits := hw.fits ht
      have hwf := hfits.wellFormed
      simp only [Node.WellFormed, Stmt.WellFormed] at hwf
      have hp := hfits.pending_eq_none rfl
      unfold At at ha
      rw [show (Site.inInitializer _ _).pending = none from hp] at ha
      simp only [Machine.receiveEvents, Event.declare, Event.regions_stored, Event.regions_nil,
        List.append_nil]
      exact sound_define hh hwf.1 hp ha.introduce_of_declare hs' (hv.grows (Grows.define ..))
    | branch ht =>
      have hwf := (hw.fits ht).wellFormed
      simp only [Node.WellFormed, Stmt.WellFormed] at hwf
      have hthen := Site.after_of_contained hwf.2.1.2 σ
      have helse := hw.asks ht .elseBranch
      rw [hthen] at helse
      simp only [Machine.receiveEvents, Machine.receive, Event.regions_nil, List.append_nil]
      cases v.truthy with
      | true => exact ⟨hh, .exec (hw.asks ht .thenBranch) ha (by rwa [hthen])⟩
      | false => exact ⟨hh, .exec helse ha (by rwa [Site.after_of_contained hwf.2.2.2 σ])⟩
    | loopTest ht =>
      have hst : Stands V R m σ := ⟨hh, ha, hs'⟩
      have hwf := (hw.fits ht).wellFormed
      simp only [Node.WellFormed, Stmt.WellFormed] at hwf
      simp only [Machine.receiveEvents, Machine.receive, Event.regions_nil, List.append_nil]
      split
      · refine sound_enter hh (.exec (hw.asks ht .whileBody) ha ?_)
        rw [Site.after_of_contained hwf.2.2 σ]
        exact .waiting (.loopBody ht) hs'
      · exact hst.yield (v := .nil) trivial
    | loopBody ht =>
      have hst : Stands V R m σ := ⟨hh, ha, hs'⟩
      simp only [Machine.receiveEvents, Event.regions_nil, List.append_nil]
      exact hst.await (hw.asks ht .whileCondition) (.loopTest ht) s
    | superclass parent ht =>
      cases v with
      | cls c => exact sound_declareClass (some c) hw ht hh ha hs' rfl
      | _ =>
        simp only [Machine.receiveEvents, Event.regions_nil, List.append_nil]
        exact sound_error hh ..
    | rest hss =>
      simp only [Machine.receiveEvents, Event.regions_nil, List.append_nil]
      exact ⟨hh, .run hss ha hs'⟩

/-- A `return` passes what waits, up to the call that it ends. -/
theorem sound_receiveReturn (hh : HeapOk V R m.heap) (hv : ValueOk V R m.heap v)
    (hf : σ.around.function.isSome) (hs : StackOk V R m.heap (w :: m.stack.items) m.frame σ)
    (hc : m.control = .returning v) : Sound V R (m.receiveReturn v w) := by
  cases hs with
  | leave haround _ hs' => exact ⟨hh, hc ▸ .returning hv (haround ▸ hf) hs'⟩
  | activation hr ha' hs' => exact sound_finishCall hh hv hr ha' hs'
  | waiting hj hs' =>
    have hm : m.receiveReturn v w = m := by cases hj <;> rfl
    rw [hm]
    exact ⟨hh, hc ▸ .returning hv (hj.around ▸ hf) hs'⟩

/-- A step of an accepted program. -/
theorem Sound.step (hm : Sound V R m) (hw : Walked V) (s : Setting) :
    Sound V (R ++ Event.regions m.events) (m.step s) := by
  obtain ⟨control, ⟨items, n, hn⟩, frame, heap, printed, callToken⟩ := m
  obtain ⟨hh, hc⟩ := hm
  cases hc with
  | eval he ha hs => exact Stands.evaluateNode ⟨hh, ha, hs⟩ hw he rfl s
  | exec ht ha hs => exact sound_execute hh hw ht ha hs s
  | @run ss σ _ _ hss ha hs =>
    simp only [Machine.events, Event.regions_nil, List.append_nil]
    cases ss with
    | nil => exact Stands.yield ⟨hh, ha, hs⟩ trivial
    | cons t ts =>
      simp only [Machine.step, Site.stmts_cons]
      exact sound_enter hh (.exec (hw.asks hss .firstStmt) ha
        (.waiting (.rest (hw.asks hss .otherStmts)) hs))
  | @value v _ _ _ hv ha hs =>
    cases items with
    | nil => simpa [Machine.events] using ⟨hh, .value hv ha hs⟩
    | cons w items =>
      subst hn
      have hr := sound_receive (m := ⟨.value v, ⟨items, _, rfl⟩, frame, heap, printed, callToken⟩)
        hh hw hv ha hs s
      rwa [← Machine.receiveEvents_stack _ ⟨w :: items, _, rfl⟩] at hr
  | returning hv hf hs =>
    simp only [Machine.events, Event.regions_nil, List.append_nil]
    cases items with
    | nil =>
      cases hs with
      | bottom hnone => simp [hnone] at hf
    | cons w items =>
      subst hn
      exact sound_receiveReturn
        (m := ⟨.returning _, ⟨items, _, rfl⟩, frame, heap, printed, callToken⟩) hh hv hf hs rfl
  | failing hf =>
    simp only [Machine.events, Event.regions_nil, List.append_nil]
    cases items with
    | nil => exact ⟨hh, .failing hf⟩
    | cons w items => cases w <;> exact ⟨hh, .failing hf⟩

end LoxLang
