import LoxLang.Proofs.FramesMirrorScopes
import LoxLang.Proofs.StoringSteps

/-!
# Variables that are assigned

An assignment that goes through writes where the name is bound already
(`assignments_find_variables`), so that only declarations, parameters and the frames of `this` and
`super` bring names into frames. There is one exception: the walk of the resolver keeps a local
variable from being read in its own initializer, but not from being assigned there. Such an
assignment binds the name before the declaration does (`AssignedEarly`,
`assignment_introduces_variable`).
-/

namespace LoxLang

/-- The reference is the target of an assignment to a local variable in the initializer of this
variable. -/
inductive AssignedEarly (V : Node → Site → Prop) : Reference → Prop where
  | intro : V (.stmt (.varDecl name (some e))) σ → σ.scopes ≠ [] →
    target.name.lexeme = name.lexeme → (.assign, target) ∈ e.references →
    AssignedEarly V (target.resolve (σ.inInitializer name).scopes)

namespace Machine

/-- What comes of an assignment. -/
inductive Assigns (V : Node → Site → Prop) (m m' : Machine) (r : Reference) (v : Value) : Prop where
  | bound : m.target? r = some j → m.heap.frames.lookup? j r.name.lexeme = some u →
    m'.heap = m.heap.define j r.name.lexeme v → Assigns V m m' r v
  | undefined : r.hops = none → m.heap.frames.lookup? Heap.globals r.name.lexeme = none →
    m'.heap = m.heap → m'.control = .failing (.error r.name (.undefinedVariable r.name.lexeme)) →
    Assigns V m m' r v
  | early : AssignedEarly V r → r.hops = some 0 →
    m.heap.frames.lookup? m.frame r.name.lexeme = none →
    m'.heap = m.heap.define m.frame r.name.lexeme v → Assigns V m m' r v

/-- The next step brings a name into a frame. Frames from the size of the heap on are made by it. -/
inductive BringsIn (V : Node → Site → Prop) (m : Machine) : Nat → String → Prop where
  | declaration : m.Declaring st t → BringsIn V m m.frame t.lexeme
  | parameter {k : Nat} {c : Closure} : m.heap.closures[k]? = some c →
    p ∈ c.declaration.parameters → m.size ≤ j → BringsIn V m j p.lexeme
  | receiver : BringsIn V m m.size "this"
  | superclass : BringsIn V m m.size "super"
  | early : m.Assigning r v → AssignedEarly V r → BringsIn V m m.frame r.name.lexeme

end Machine

/-! ## Variables in their own initializers -/

theorem Scope.unready_eq_false {scopes : List Scope} (h : ∀ scope ∈ scopes, scope.Ready)
    (x : String) : unready x scopes = false := by
  cases scopes with
  | nil => rfl
  | cons scope outer => exact decide_eq_false (h scope List.mem_cons_self x)

theorem Scope.unready_of_declare {scopes : List Scope} (hy : y ≠ x)
    (h : unready x (declare y scopes)) : unready x scopes := by
  cases scopes with
  | nil => exact h
  | cons scope outer =>
    simp only [declare, unready, Bindings.get?_insert_of_ne hy.symm] at h
    exact h

/-- A name that is not ready is one of the innermost scope. -/
theorem Fits.unready_of_get? {scope : Scope} (h : Fits (.expr e) σ)
    (hscope : σ.scopes[d]? = some scope) (hx : scope.get? x = some false) :
    d = 0 ∧ Scope.unready x σ.scopes := by
  cases hΓ : σ.scopes with
  | nil => rw [hΓ] at hscope; cases hscope
  | cons inner Γ =>
    rw [hΓ] at hscope
    cases d with
    | zero =>
      cases hscope
      exact ⟨rfl, decide_eq_true hx⟩
    | succ d =>
      refine absurd hx (h.ready scope ?_ x)
      rw [Node.readyScopes, hΓ]
      exact List.mem_of_getElem? hscope

/-- A name is not ready only in the initializer of its variable. -/
theorem Visited.unready_cases (hroots : ∀ n, roots n → Fits n .topLevel) (h : Visited roots n σ)
    (hx : Scope.unready x σ.scopes) :
    ∃ name e σ', Visited roots (.stmt (.varDecl name (some e))) σ' ∧
      σ = σ'.inInitializer name ∧ name.lexeme = x ∧ n.references ⊆ e.references := by
  have ready {scopes : List Scope} (hready : ∀ scope ∈ scopes, scope.Ready)
      (hx : Scope.unready x scopes) : False :=
    Bool.false_ne_true ((Scope.unready_eq_false hready x).symm.trans hx)
  induction h with
  | root => cases hx
  | @asks n σ n' σ' hv ha ih =>
    have hf := hv.fits hroots
    have hf' := (hv.asks ha).fits hroots
    -- What an expression asks for stands at the same site, and its references are among those of
    -- the expression.
    have part (hσ : σ = σ') (hn : n'.references ⊆ n.references) :
        ∃ name e σ₀, Visited roots (.stmt (.varDecl name (some e))) σ₀ ∧
          σ' = σ₀.inInitializer name ∧ name.lexeme = x ∧ n'.references ⊆ e.references := by
      subst hσ
      obtain ⟨name, e, σ₀, hvisited, hsite, hname, hrefs⟩ := ih hx
      exact ⟨name, e, σ₀, hvisited, hsite, hname, List.Subset.trans hn hrefs⟩
    cases ha with
    | assignValue => exact part rfl (List.subset_cons_self ..)
    | binaryLeft | callee | logicalLeft | setObject | firstExpr =>
      exact part rfl (List.subset_append_left ..)
    | binaryRight | arguments | logicalRight | setValue | otherExprs =>
      exact part rfl (List.subset_append_right ..)
    | getObject | grouping | operand => exact part rfl (List.Subset.refl _)
    | @initializer name e =>
      by_cases hname : name.lexeme = x
      · exact ⟨name, e, σ, hv, rfl, hname, List.Subset.refl _⟩
      · exact (ready hf.ready (Scope.unready_of_declare hname hx)).elim
    | @superclass name => exact (ready (Fits.ready_introduceEach [name] hf.ready) hx).elim
    | expression | ifCondition | print | returnValue | whileCondition =>
      exact (ready hf.ready hx).elim
    | _ => exact (ready hf'.ready hx).elim

/-- A local variable that is assigned binds its name already, unless it is in its own
initializer. -/
theorem Visited.binds_target (hroots : ∀ n, roots n → Fits n .topLevel)
    (hv : Visited roots (.expr (.assign target e)) σ) (ha : At R h i σ)
    (hd : (target.resolve σ.scopes).hops = some d) :
    ∃ j, h.frames.frameAt i d = .ok j ∧
      ((∃ v, h.frames.lookup? j target.name.lexeme = some v) ∨
        d = 0 ∧ AssignedEarly (Visited roots) (target.resolve σ.scopes)) := by
  have hf := hv.fits hroots
  have hdistance := hf.distance?_of_reference? (by rw [Site.expr_assign]; rfl) hd
  obtain ⟨scope, hscope, hx⟩ := Scope.contains_of_distance? hdistance
  obtain ⟨j, hj, -⟩ := ha.frameAt hscope
  obtain ⟨b, hb⟩ := Option.isSome_iff_exists.1 hx
  cases b with
  | true =>
    have hpending : σ.pending ≠ some target.name.lexeme := by
      rw [hf.pending_eq_none rfl]
      exact (Option.some_ne_none _).symm
    obtain ⟨j, v, hj, hv, -⟩ := ha.getAt hscope hb fun _ => hpending
    exact ⟨j, hj, .inl ⟨v, hv⟩⟩
  | false =>
    obtain ⟨rfl, hunready⟩ := hf.unready_of_get? hscope hb
    obtain ⟨name, e, σ₀, hdecl, rfl, hname, hrefs⟩ := hv.unready_cases hroots hunready
    refine ⟨j, hj, .inr ⟨rfl, .intro hdecl (fun hnil => ?_) hname.symm (hrefs List.mem_cons_self)⟩⟩
    rw [Site.inInitializer, hnil] at hunready
    cases hunready

/-! ## Assignments -/

namespace Machine

theorem Assigning.step {m : Machine} (ha : m.Assigning r v) (s : Setting) :
    ∃ stack, m.step s = { m with stack }.assign r v := by
  obtain ⟨control, ⟨items, n, hn⟩, frame, heap, printed, callToken⟩ := m
  obtain ⟨hc, items, hs⟩ := ha
  cases hc
  cases hs
  exact ⟨_, rfl⟩

/-- An assignment with a target is carried out there. -/
theorem Assigning.heap_step {m : Machine} (ha : m.Assigning r v) (hj : m.target? r = some j)
    (s : Setting) : (m.step s).heap = m.heap.define j r.name.lexeme v := by
  obtain ⟨stack, hstep⟩ := ha.step s
  rw [hstep, assign]
  cases hd : r.hops with
  | some d =>
    rw [target?_of_hops hd] at hj
    simp only [hj]
    rfl
  | none =>
    rw [target?_of_global hd] at hj
    simp only [hj]
    rfl

theorem Assigning.undefined {m : Machine} (ha : m.Assigning r v) (hd : r.hops = none)
    (hj : m.target? r = none) (s : Setting) :
    (m.step s).heap = m.heap ∧
      (m.step s).control = .failing (.error r.name (.undefinedVariable r.name.lexeme)) := by
  obtain ⟨stack, hstep⟩ := ha.step s
  rw [target?_of_global hd] at hj
  simp only [hstep, assign, hd, hj]
  exact ⟨rfl, rfl⟩

end Machine

namespace Moment

/-- An assignment finds its name bound, or it is one to no variable, or it is early. -/
theorem assigns (h : Moment colored acts a m log) (ha : m.Assigning r v) (s : Setting) :
    m.Assigns (VisitedIn (acts ++ [a])) (m.step s) r v := by
  obtain ⟨target, e, σ, rfl, hv, hat⟩ := h.sound.assigning ha
  cases hd : (target.resolve σ.scopes).hops with
  | some d =>
    obtain ⟨j, hj, hbinds⟩ := hv.binds_target (fun _ ⟨_, _, h⟩ => h.fits) hat hd
    have htarget := (Machine.target?_of_hops hd).2 hj
    have hheap := ha.heap_step htarget s
    cases hu : m.heap.frames.lookup? j target.name.lexeme with
    | some u => exact .bound htarget hu hheap
    | none =>
      rcases hbinds with ⟨u, hu'⟩ | ⟨rfl, hearly⟩
      · cases hu.symm.trans hu'
      · cases Frames.frameAt_zero_eq hj
        exact .early hearly hd hu hheap
  | none =>
    obtain ⟨bs, hbs⟩ := h.sound.heap.globals
    have hholder {j : Nat} : m.target? (target.resolve σ.scopes) = some j ↔
        j = Heap.globals ∧ ∃ u, m.heap.frames.lookup? Heap.globals target.name.lexeme = some u := by
      rw [Machine.target?_of_global hd]
      exact Frames.holder?_root_iff hbs
    cases hu : m.heap.frames.lookup? Heap.globals target.name.lexeme with
    | some u =>
      have htarget := hholder.2 ⟨rfl, u, hu⟩
      exact .bound htarget hu (ha.heap_step htarget s)
    | none =>
      have htarget : m.target? (target.resolve σ.scopes) = none := by
        refine Option.eq_none_iff_forall_ne_some.2 fun j hj => ?_
        obtain ⟨-, u, hu'⟩ := hholder.1 hj
        cases hu.symm.trans hu'
      obtain ⟨hheap, hfails⟩ := ha.undefined hd htarget s
      exact .undefined hd hu hheap hfails

/-- No other assignment brings a name into a frame. -/
theorem bringsIn (h : Moment colored acts a m log) {s : Setting}
    (hx : m.heap.frames.lookup? j x = none) (hx' : (m.step s).heap.frames.lookup? j x ≠ none) :
    m.BringsIn (VisitedIn (acts ++ [a])) j x := by
  obtain ⟨e, he, rfl, rfl⟩ := Machine.stores_of_change h.sound.frame_lt (hx ▸ hx')
  cases m.stores_events e he with
  | declaration hd => exact .declaration hd
  | parameter hc hp hj => exact .parameter hc hp hj
  | receiver => exact .receiver
  | superclass => exact .superclass
  | @assignment r v j ha hj =>
    cases h.assigns ha s with
    | bound hj' hu =>
      cases hj.symm.trans hj'
      cases hx.symm.trans hu
    | undefined _ _ hheap => exact absurd hx (hheap ▸ hx')
    | early hearly hd =>
      cases Frames.frameAt_zero_eq ((Machine.target?_of_hops hd).1 hj)
      exact .early ha hearly

/-- A local variable that is read is bound. -/
theorem getAt_variable (h : Moment colored acts a m log) (hc : m.control = .eval (.variable r))
    (hd : r.hops = some d) : ∃ v, m.heap.frames.getAt m.frame d r.name.lexeme = .ok v := by
  have hcontrol := h.sound.control
  generalize hk : m.control = control at hcontrol
  rw [hc] at hk
  cases hcontrol with
  | @eval e σ _ _ hv ha =>
    cases e with
    | «variable» target =>
      rw [Site.expr_variable] at hk
      cases hk
      have hf := (walked_visitedIn _).fits hv
      obtain ⟨scope, hscope, hx, hp⟩ := hf.reads_variable d hd
      obtain ⟨j, v, -, -, hget⟩ := At.getAt ha hscope hx hp
      exact ⟨v, hget⟩
    | this keyword =>
      simp only [Site.expr, Expr.resolve] at hk
      split at hk <;> cases hk
    | _ => simp [Site.expr, Expr.resolve] at hk
  | _ => cases hk

end Moment

/-- Assignments find their variables. At every moment of a run in a session, an assignment writes
where its name is bound already, or fails because it is one to no global variable, or stands in the
initializer of the local variable that it names; so names come into frames only by declarations,
parameters, the frames of `this` and `super` and assignments of this last kind. A local variable is
not read in its own initializer: whenever one is read, it is bound. -/
theorem assignments_find_variables (h : Moment colored acts a m log) (s : Setting) :
    (∀ (r : Reference) (v : Value), m.Assigning r v →
      m.Assigns (VisitedIn (acts ++ [a])) (m.step s) r v) ∧
    (∀ (j : Nat) (x : String), m.heap.frames.lookup? j x = none →
      (m.step s).heap.frames.lookup? j x ≠ none →
        m.BringsIn (VisitedIn (acts ++ [a])) j x) ∧
    ∀ (r : Reference) (d : Nat), m.control = .eval (.variable r) → r.hops = some d →
      ∃ v, m.heap.frames.getAt m.frame d r.name.lexeme = .ok v :=
  ⟨fun _ _ ha => h.assigns ha s, fun _ _ hx hx' => h.bringsIn hx hx',
    fun _ _ hc hd => h.getAt_variable hc hd⟩

/-- The assignment that the next step carries out. -/
def Machine.assigning? (m : Machine) : Option (Reference × Value) :=
  match m.control, m.stack.items with
  | .value v, .assign r :: _ => some (r, v)
  | _, _ => none

theorem Machine.assigning_of_assigning? {m : Machine} (h : m.assigning? = some (r, v)) :
    m.Assigning r v := by
  unfold assigning? at h
  split at h
  · next hc hs =>
    cases h
    exact ⟨hc, _, hs⟩
  · cases h

/-- The local variable that the next step reads. -/
def Machine.readsLocal (m : Machine) : Bool :=
  match m.control with
  | .eval (.variable r) => r.hops.isSome
  | _ => false

/-- A closure assigns a variable of a block that has ended; then a block declares a variable and
reads it. -/
theorem assignments_find_variables_of_closure :
    let acts : List Act := [.run true ⟨40, 40, ⟨100, fun _ => 0⟩, 1000⟩ "a.lox"
      "var g; { var x; fun f() { x = true; } g = f; }"]
    let a : Act := .run true ⟨40, 40, ⟨100, fun _ => 0⟩, 1000⟩ "b.lox" "g(); { var y = nil; y; }"
    (∃ m log r v, (Moment false acts a m log ∧ m.Assigning r v ∧ r.hops = some 1) ∧
      m.Assigns (VisitedIn (acts ++ [a])) (m.step ⟨100, fun _ => 0⟩) r v) ∧
    (∃ m log, (Moment false acts a m log ∧ m.heap.frames.lookup? 3 "y" = none ∧
        (m.step ⟨100, fun _ => 0⟩).heap.frames.lookup? 3 "y" ≠ none) ∧
      m.BringsIn (VisitedIn (acts ++ [a])) 3 "y") ∧
    ∃ m log r d, (Moment false acts a m log ∧ m.control = .eval (.variable r) ∧
        r.hops = some d) ∧
      ∃ v, m.heap.frames.getAt m.frame d r.name.lexeme = .ok v := by
  intro acts a
  have hassigns : (((Session.start false).after acts).machine? a 9).any fun m =>
      m.assigning?.any fun (r, _) => r.hops = some 1 := by
    decide +kernel
  have hdefines : (((Session.start false).after acts).machine? a 19).any fun m =>
      (m.heap.frames.lookup? 3 "y").isNone &&
        ((m.step ⟨100, fun _ => 0⟩).heap.frames.lookup? 3 "y").isSome := by
    decide +kernel
  have hreads : (((Session.start false).after acts).machine? a 23).any Machine.readsLocal := by
    decide +kernel
  obtain ⟨m₁, log₁, hmoment₁, h₁⟩ := Moment.exists_of_any hassigns
  obtain ⟨m₂, log₂, hmoment₂, h₂⟩ := Moment.exists_of_any hdefines
  obtain ⟨m₃, log₃, hmoment₃, h₃⟩ := Moment.exists_of_any hreads
  obtain ⟨⟨r, v⟩, hassigning, hhops⟩ := (Option.any_eq_true _ _).1 h₁
  simp only [Bool.and_eq_true, Option.isNone_iff_eq_none, Option.isSome_iff_ne_none] at h₂
  have ha := Machine.assigning_of_assigning? hassigning
  refine ⟨⟨m₁, log₁, r, v, ⟨hmoment₁, ha, of_decide_eq_true hhops⟩, ?_⟩,
    ⟨m₂, log₂, ⟨hmoment₂, h₂⟩, ?_⟩, ?_⟩
  · exact (assignments_find_variables hmoment₁ ⟨100, fun _ => 0⟩).1 r v ha
  · exact (assignments_find_variables hmoment₂ ⟨100, fun _ => 0⟩).2.1 3 "y" h₂.1 h₂.2
  · unfold Machine.readsLocal at h₃
    split at h₃
    · next r hc =>
      obtain ⟨d, hd⟩ := Option.isSome_iff_exists.1 h₃
      exact ⟨m₃, log₃, r, d, ⟨hmoment₃, hc, hd⟩,
        (assignments_find_variables hmoment₃ ⟨100, fun _ => 0⟩).2.2 r d hc hd⟩
    · cases h₃

/-- An assignment in the initializer of its own variable is not reported, and it binds the name. -/
theorem assignment_introduces_variable :
    let a : Act := .run true ⟨40, 40, ⟨100, fun _ => 0⟩, 1000⟩ "a.lox" "{ var a = a = nil; }"
    ((Session.start false).act a).log.hadError = false ∧
      ∃ m log r v, Moment false [] a m log ∧ m.Assigning r v ∧ m.target? r = some m.frame ∧
        m.heap.frames.lookup? m.frame r.name.lexeme = none ∧
        (m.step ⟨100, fun _ => 0⟩).heap.frames.lookup? m.frame r.name.lexeme ≠ none := by
  intro a
  have hrun : (((Session.start false).after []).machine? a 6).any fun m =>
      m.assigning?.any fun (r, _) => m.target? r = some m.frame &&
        (m.heap.frames.lookup? m.frame r.name.lexeme).isNone &&
        ((m.step ⟨100, fun _ => 0⟩).heap.frames.lookup? m.frame r.name.lexeme).isSome := by
    decide +kernel
  obtain ⟨m, log, hmoment, h⟩ := Moment.exists_of_any hrun
  obtain ⟨⟨r, v⟩, hassigning, hbinds⟩ := (Option.any_eq_true _ _).1 h
  simp only [Bool.and_eq_true, decide_eq_true_eq, Option.isNone_iff_eq_none,
    Option.isSome_iff_ne_none] at hbinds
  obtain ⟨⟨htarget, hbefore⟩, hafter⟩ := hbinds
  exact ⟨by decide +kernel, m, log, r, v, hmoment,
    Machine.assigning_of_assigning? hassigning, htarget, hbefore, hafter⟩

end LoxLang
