import LoxLang.Proofs.FramesMirrorScopes
import LoxLang.Proofs.StoringSteps

/-!
# Shared variables

A variable that is bound to a local declaration has the value stored last in the activation of its
scope that is around the evaluation (`variable_reads_last_store`). The activations around are those
of the trail. Every store there under the name of the variable is made by the declaration itself or
by an assignment that is bound to it, at an earlier stage that has the same activation around it
(`Stage.StoresIn`), and no such store is lost. Which closure or call of the activation made the
store does not matter, and what is stored in other activations is never seen.
-/

namespace LoxLang

/-- Two declarations of a region with one name are the same. -/
theorem Region.Distinct.unique (hd : Region.Distinct ρ) (ht : t ∈ ρ.declared)
    (hu : u ∈ ρ.declared) (h : u.lexeme = t.lexeme) : u = t := by
  have hunique (ts : List Token) (hts : (ts.map Token.lexeme).Nodup) (ht : t ∈ ts) (hu : u ∈ ts) :
      u = t := by
    induction ts with
    | nil => cases ht
    | cons v ts ih =>
      rw [List.map_cons, List.nodup_cons] at hts
      rcases List.mem_cons.1 ht with rfl | ht'
      · rcases List.mem_cons.1 hu with rfl | hu'
        · rfl
        · exact absurd (h ▸ List.mem_map_of_mem hu') hts.1
      · rcases List.mem_cons.1 hu with rfl | hu'
        · exact absurd (h ▸ List.mem_map_of_mem ht') hts.1
        · exact ih hts.2 ht' hu'
  exact hunique _ hd.nodup ht hu

/-- The scope of an identifier belongs to a region that declares it. -/
theorem Layers.declares {scope : Scope} {d : Nat} (h : Layers k Γ ρs) (hd : Γ[d]? = some scope)
    (hx : scope.contains x) (hi : IsIdentifier x) :
    ∃ ρ, ρs[d]? = some ρ ∧ Region.Distinct ρ ∧ ∃ t ∈ Region.declared ρ, t.lexeme = x := by
  have hkeyword (y : String) (hy : ¬IsIdentifier y) : ¬Bindings.contains x [(y, true)] := by
    intro hc
    simp only [Bindings.contains, Bindings.get?_cons] at hc
    split at hc
    · next h => exact hy (h ▸ hi)
    · cases hc
  induction h generalizing d with
  | globals => cases hd
  | inner _ hnames hdistinct ih =>
    cases d with
    | zero => cases hd; exact ⟨_, rfl, hdistinct, hnames x hx⟩
    | succ d => exact ih hd
  | base _ ih =>
    cases d with
    | zero => cases hd; exact absurd hx (hkeyword "this" (by decide))
    | succ d => exact ih hd
  | derived _ ih =>
    rcases d with _ | _ | d
    · cases hd; exact absurd hx (hkeyword "this" (by decide))
    · cases hd; exact absurd hx (hkeyword "super" (by decide))
    · exact ih hd

namespace Event

/-- The last store under a name of a frame, if it is the event or comes behind it. -/
theorem lookup?_perform {fs : Frames Value} (h : (perform fs e).lookup? j x = some v) :
    (∃ s, e = stored s ∧ s.frame = j ∧ s.name = x ∧ s.value = v) ∨
      (∀ s ∈ storings [e], ¬(s.frame = j ∧ s.name = x)) ∧ fs.lookup? j x = some v := by
  obtain ⟨f, hf, hv⟩ := Option.bind_eq_some_iff.1 h
  cases e with
  | made outer ρ =>
    refine .inr ⟨List.forall_mem_nil _, ?_⟩
    have hj := Frames.lt_of_frame? hf
    by_cases hlt : j < fs.all.size
    · rwa [Frames.lookup?, ← Frames.frame?_make_of_lt hlt]
    · have : j = fs.all.size := by simp [perform, Frames.make] at hj; omega
      have hnew : (fs.make (some outer) []).2.frame? fs.all.size = some ⟨some outer, []⟩ :=
        Frames.frame?_make_self ..
      rw [this, perform, hnew] at hf
      cases hf
      cases hv
  | stored s =>
    by_cases hs : s.frame = j ∧ s.name = x
    · obtain ⟨rfl, rfl⟩ := hs
      have hlt : s.frame < fs.all.size := by
        have := Frames.lt_of_frame? hf
        simpa [perform, Frames.define] using this
      rw [perform, Frames.lookup?_define_self hlt] at h
      exact .inl ⟨s, rfl, rfl, rfl, Option.some.inj h⟩
    · refine .inr ⟨List.forall_mem_singleton.2 hs, ?_⟩
      have hne := (Decidable.not_and_iff_or_not.1 hs).imp_right Ne.symm
      rwa [perform, Frames.lookup?_define_of_ne _ hne] at h

/-- What a frame binds a name to is what was stored last in it under the name. -/
theorem last_store {fs : Frames Value} (h : (replay es fs).lookup? j x = some v) :
    (∃ before s after, es = before ++ stored s :: after ∧ s.frame = j ∧ s.name = x ∧
        s.value = v ∧ ∀ s' ∈ storings after, ¬(s'.frame = j ∧ s'.name = x)) ∨
      (∀ s ∈ storings es, ¬(s.frame = j ∧ s.name = x)) ∧ fs.lookup? j x = some v := by
  induction es generalizing fs with
  | nil => exact .inr ⟨List.forall_mem_nil _, h⟩
  | cons e es ih =>
    rcases ih h with ⟨before, s, after, rfl, hs⟩ | ⟨hno, h⟩
    · exact .inl ⟨e :: before, s, after, rfl, hs⟩
    · rcases lookup?_perform h with ⟨s, rfl, hj, hx, hv⟩ | ⟨hno', h⟩
      · exact .inl ⟨[], s, es, rfl, hj, hx, hv, hno⟩
      · refine .inr ⟨fun s hs => ?_, h⟩
        rw [← List.singleton_append, storings_append] at hs
        rcases List.mem_append.1 hs with hs | hs
        · exact hno' s hs
        · exact hno s hs

end Event

/-- A store by a declaration of a region, or by an assignment that is bound to it. -/
inductive StoredBy (V : Node → Site → Prop) (ρ : Region) (D : Token) : Writer → Prop where
  | declaration : StoredBy V ρ D (.declaration D)
  | assignment : V (.expr (.assign r e)) σ → (r.resolve σ.scopes).hops = some d →
      σ.regions[d]? = some ρ → r.name.lexeme = D.lexeme →
      StoredBy V ρ D (.assignment (r.resolve σ.scopes))

/-- The stores in a frame of a region under the name of one of its declarations. -/
theorem Traced.storedBy (h : Traced V R e) (hi : R[e.frame]? = some ρ) (hd : Region.Distinct ρ)
    (hD : D ∈ ρ.declared) (hx : e.name = D.lexeme) (hroot : R[Heap.globals]? = some .globals) :
    StoredBy V ρ D e.writer := by
  have hid := hd.identifiers D hD
  cases h with
  | declaration hi' ht _ =>
    cases hi.symm.trans hi'
    rcases ht with rfl | ht
    · cases hD
    · rw [hd.unique hD ht hx]
      exact .declaration
  | assignment hv hd hσ hi' =>
    cases hi.symm.trans hi'
    exact .assignment hv hd hσ hx
  | global =>
    cases hi.symm.trans hroot
    cases hD
  | receiver => exact absurd hx.symm hid.ne_this
  | superclass => exact absurd hx.symm hid.ne_super

/-- Only a variable is resolved to a variable. -/
theorem Site.variable_of_expr {σ : Site} {e : Expr} (h : σ.expr e = .variable r) :
    ∃ r₀ : Reference, e = .variable r₀ ∧ r = r₀.resolve σ.scopes := by
  cases e with
  | «variable» r₀ =>
    rw [Site.expr_variable] at h
    cases h
    exact ⟨r₀, rfl, rfl⟩
  | missing => simp only [Site.expr, Expr.resolve, reduceCtorEq] at h
  | this k =>
    simp only [Site.expr, Expr.resolve] at h
    split at h <;> cases h
  | _ => simp at h

/-- At the start, only the globals bind anything. -/
theorem lookup?_initial (hj : j ≠ Heap.globals) (x : String) :
    Heap.initial.frames.lookup? j x = none := by
  cases j with
  | zero => exact absurd rfl hj
  | succ j => rfl

/-! ## Stores and activations -/

/-- The next step stores something in the activation that it belongs to. A declaration stores in the
innermost one around, a parameter is stored in the one that the call opens, and an assignment stores
in the one that is so many out. -/
inductive Stage.StoresIn (y : Stage) : Storing → Prop where
  | declaration : y.machine.Declaring st D → y.trail.here.head? = some j →
    StoresIn y ⟨j, D.lexeme, v, .declaration D⟩
  | parameter : y.trail.opened? y.machine = some (j :: outer) →
    StoresIn y ⟨j, D.lexeme, v, .declaration D⟩
  | assignment : y.machine.Assigning r v → r.hops = some d → y.trail.here[d]? = some j →
    StoresIn y ⟨j, r.name.lexeme, v, .assignment r⟩

/-- What a declaration stores in a new frame is an argument, and the frame is that of the body of
the call. -/
theorem Machine.Turn.opened? {m : Machine} {t : Trail} (ht : m.Turn es h i) (hm : m.frame < m.size)
    (hagrees : t.Agrees m) (he : e ∈ Event.storings es) (hw : e.writer = .declaration p)
    (hge : m.size ≤ e.frame) : ∃ outer, t.opened? m = some (e.frame :: outer) := by
  have hcalling {n : Nat} {c : Closure} {as : List Value}
      (he : e ∈ Event.storings (Event.calling n c as)) : e.frame = n := by
    obtain ⟨ev, hev, he⟩ := List.mem_filterMap.1 he
    rcases List.mem_cons.1 hev with rfl | hev
    · cases he
    · obtain ⟨⟨p, v⟩, -, rfl⟩ := List.mem_map.1 hev
      cases he
      rfl
  have hbinding {n : Nat} {c : Closure} {v : Value}
      (he : e ∈ Event.storings (Event.binding n c v)) : e.writer = .receiver := by
    rw [List.mem_singleton.1 he]
  have hhere {ts : List Event}
      (hts : ∀ s ∈ Event.storings ts, s.frame = m.frame ∨ s.writer = .superclass)
      (he : e ∈ Event.storings ts) : False := by
    rcases hts e he with hframe | hsuper
    · omega
    · rw [hw] at hsuper
      cases hsuper
  cases ht with
  | calls hcalls _ hc =>
    obtain ⟨home, hhome, -⟩ := hagrees.homes hc
    exact ⟨home, by rw [hcalling he, Trail.opened?_closure hcalls, hhome]; rfl⟩
  | constructs hcalls _ hk hc =>
    rw [Event.storings_append] at he
    rcases List.mem_append.1 he with he | he
    · rw [hw] at hbinding
      cases hbinding he
    · obtain ⟨home, hhome, -⟩ := hagrees.homes hc
      refine ⟨m.size :: home, ?_⟩
      rw [hcalling he, Trail.opened?_class hcalls, hk, Option.bind_some, hhome]
      rfl
  | binds =>
    rw [hw] at hbinding
    cases hbinding he
  | declare | function => exact (hhere (List.forall_mem_singleton.2 (.inl rfl)) he).elim
  | assign =>
    rw [List.mem_singleton.1 he] at hw
    cases hw
  | @declares name superclass methods hd =>
    have hname (v : Value) : ∀ s ∈ Event.storings [Event.declare m.frame name v],
        s.frame = m.frame ∨ s.writer = .superclass := List.forall_mem_singleton.2 (.inl rfl)
    refine (hhere ?_ he).elim
    unfold Machine.declareClassEvents
    rw [Event.storings_append, Event.storings_append]
    refine List.forall_mem_append.2 ⟨List.forall_mem_append.2 ⟨hname _, ?_⟩, hname _⟩
    cases superclass with
    | none => exact List.forall_mem_nil _
    | some c => exact List.forall_mem_singleton.2 (.inr rfl)
  | quiet | block | creates | asks | sets => cases he

/-- Stores go to the activations that they belong to. -/
theorem Stage.Met.storesIn {y : Stage} (hy : y.Met P) (he : .stored e ∈ y.machine.events)
    (hne : e.frame ≠ Heap.globals) (hx : IsIdentifier e.name) : y.StoresIn e := by
  have hagrees := hy.agrees
  have he := Event.mem_storings.2 he
  cases y.machine.stores_events e he with
  | declaration hd => exact .declaration hd (hagrees.here.head? hne)
  | @assignment r v j ha hj =>
    cases hd : r.hops with
    | some d =>
      have hframe := (Machine.target?_of_hops hd).1 hj
      exact .assignment ha hd (hagrees.here.getElem?_of_frameAt hframe hne)
    | none =>
      -- Without a number of links the globals are searched, and they alone.
      rw [Machine.target?_of_global hd] at hj
      obtain ⟨⟨_, bs⟩, hf, rfl⟩ := Option.map_eq_some_iff.1 hy.machine.enclosing_globals
      exact absurd (Frames.holder?_root hf hj) hne
  | parameter _ _ hge =>
    obtain ⟨outer, hopen⟩ := (y.machine.turn_step ⟨0, fun _ => 0⟩).opened?
      hy.machine.inRange.around.current hagrees he rfl hge
    exact .parameter hopen
  | receiver => exact absurd rfl hx.ne_this
  | superclass => exact absurd rfl hx.ne_super

/-- An assignment stores in the activation that is so many out. -/
theorem Stage.Met.events_of_assigning {y : Stage} (hy : y.Met P) (ha : y.machine.Assigning r v)
    (hd : r.hops = some d) (hj : y.trail.here[d]? = some j) :
    y.machine.events = [.stored ⟨j, r.name.lexeme, v, .assignment r⟩] := by
  obtain ⟨hc, items, hi⟩ := ha
  have hframe := hy.agrees.here.frameAt hj
  simp only [Machine.events, hc, hi, Machine.receiveEvents, Machine.assignEvents, hd, hframe]

/-- A declaration stores in the innermost activation around. -/
theorem Stage.Met.stored_of_declaring {y : Stage} (hy : y.Met P) (hd : y.machine.Declaring st D)
    (hj : y.trail.here.head? = some j) :
    ∃ v, .stored ⟨j, D.lexeme, v, .declaration D⟩ ∈ y.machine.events := by
  have hframe : y.machine.frame = j := by
    have hhead := Chain.head? hy.agrees.here
    rw [List.head?_append, hj] at hhead
    exact (Option.some.inj hhead).symm
  subst hframe
  cases hd with
  | «variable» hc | function hc =>
    exact ⟨_, by simp only [Machine.events, hc]; exact List.mem_singleton_self _⟩
  | initialized e hc hi =>
    exact ⟨_, by simp only [Machine.events, hc, hi]; exact List.mem_singleton_self _⟩
  | «class» parent hd =>
    refine ⟨.nil, ?_⟩
    rw [Machine.events_of_declares hd]
    unfold Machine.declareClassEvents
    rw [List.append_assoc]
    exact List.mem_append_left _ List.mem_cons_self

/-- At every evaluation of a variable that is bound to a local declaration `D`, the value is the one
stored last in the activation `j` of the scope of `D` that is around the evaluation: the one so many
out on the trail. All stores in this activation under the name of `D` were made by `D` itself or by
an assignment that is bound to `D`, each at an earlier stage that has `j` around it in its turn, or
opens it. Every assignment at an earlier stage stores in the activation that is so many out there,
and every declaration in the innermost one. -/
theorem variable_reads_last_store (h : Moment colored acts a m log)
    (hc : m.control = .eval (.variable r)) (hd : r.hops = some d) (setting : Setting) :
    (∃ t, Stage.Met (·.isTree) ⟨m, log, t⟩) ∧ ∀ P t, Stage.Met P ⟨m, log, t⟩ →
      ∃ r₀ σ j ρ D, VisitedIn (acts ++ [a]) (.expr (.variable r₀)) σ ∧ r = r₀.resolve σ.scopes ∧
        σ.regions[d]? = some ρ ∧ D ∈ ρ.declared ∧ D.lexeme = r.name.lexeme ∧
        (∀ D' ∈ ρ.declared, D'.lexeme = D.lexeme → D' = D) ∧
        t.here[d]? = some j ∧ m.heap.frames.frameAt m.frame d = .ok j ∧ j ≠ Heap.globals ∧
        (Region.globals :: Event.regions log)[j]? = some ρ ∧
        (∃ before s after, log = before ++ .stored s :: after ∧ s.frame = j ∧
          s.name = D.lexeme ∧ (m.step setting).control = .value s.value ∧
          ∀ s' ∈ Event.storings after, ¬(s'.frame = j ∧ s'.name = D.lexeme)) ∧
        (∀ before s after, log = before ++ .stored s :: after → s.frame = j → s.name = D.lexeme →
          StoredBy (VisitedIn (acts ++ [a])) ρ D s.writer ∧
            ∃ y : Stage, y.Before P ⟨m, log, t⟩ ∧ y.log <+: before ∧
              before ++ [.stored s] <+: y.log ++ y.machine.events ∧ y.StoresIn s) ∧
        (∀ (y : Stage) r' v d' j', y.Before P ⟨m, log, t⟩ → y.machine.Assigning r' v →
          r'.hops = some d' → y.trail.here[d']? = some j' →
            y.log ++ [.stored ⟨j', r'.name.lexeme, v, .assignment r'⟩] <+: log) ∧
        ∀ (y : Stage) st D' j', y.Before P ⟨m, log, t⟩ → y.machine.Declaring st D' →
          y.trail.here.head? = some j' →
            ∃ v, .stored ⟨j', D'.lexeme, v, .declaration D'⟩ ∈ y.machine.events ∧
              y.log ++ y.machine.events <+: log := by
  refine ⟨h.exists_stage, fun P t ht => ?_⟩
  have hw := walked_visitedIn (acts ++ [a])
  obtain ⟨hh, hctl⟩ := h.sound
  obtain ⟨r₀, σ, hv, rfl, ha⟩ : ∃ r₀ σ, VisitedIn (acts ++ [a]) (.expr (.variable r₀)) σ ∧
      r = r₀.resolve σ.scopes ∧ At (.globals :: Event.regions log) m.heap m.frame σ := by
    rw [hc] at hctl
    generalize he : Expr.variable r = e at hctl
    cases hctl with
    | @eval e₀ σ _ _ hv ha =>
      obtain ⟨r₀, rfl, rfl⟩ := Site.variable_of_expr he.symm
      exact ⟨r₀, σ, hv, rfl, ha⟩
  have hfits := hw.fits hv
  have hr : r₀.Unresolved := by
    simpa only [Node.WellFormed, Expr.WellFormed] using hfits.wellFormed
  have hdist := (Reference.hops_resolve hr.hops _).symm.trans hd
  -- the region of the scope, and the frame that was made for it
  obtain ⟨scope, hscope, hready, hp⟩ := hfits.reads_variable d hd
  have hx : scope.contains r₀.name.lexeme := Option.isSome_iff_exists.2 ⟨true, hready⟩
  obtain ⟨ρ, hρ, hdistinct, D, hD, hname⟩ := hfits.layers.declares hscope hx hr.name
  obtain ⟨j, ρ', hj, hne, hregion, hρ', -⟩ := ha.selects hh hfits hdist
  cases hρ.symm.trans hρ'
  obtain ⟨j', v, hj', hlookup, hget⟩ := ha.getAt hscope hready hp
  cases hj.symm.trans hj'
  have hstep : (m.step setting).control = .value v := by
    have hread : m.step setting = m.read (r₀.resolve σ.scopes) := by
      simp only [Machine.step, hc, Machine.evaluate]
    have hget' : m.heap.frames.getAt m.frame d (r₀.resolve σ.scopes).name.lexeme = .ok v := hget
    simp only [hread, Machine.read, hd, hget', Machine.yield]
  have hid := hdistinct.identifiers D hD
  refine ⟨r₀, σ, j, ρ, D, hv, rfl, hρ, hD, hname, fun D' hD' => hdistinct.unique hD hD',
    ht.agrees.here.getElem?_of_frameAt hj hne, hj, hne, hregion, ?_, ?_, ?_, ?_⟩
  rotate_left
  · rintro before s after rfl hsj hsx
    have hs : s ∈ Event.storings (before ++ .stored s :: after) := Event.mem_storings.2 (by simp)
    obtain ⟨y, hy, he, hbefore, hstore⟩ := ht.stored rfl
    exact ⟨(h.traced s hs).storedBy (hsj ▸ hregion) hdistinct hD hsx rfl, y, hy, hbefore, hstore,
      hy.1.storesIn he (hsj ▸ hne) (hsx ▸ hid)⟩
  · intro y r' v d' j' hy hassign hd' hj'
    exact hy.1.events_of_assigning hassign hd' hj' ▸ hy.log
  · intro y st D' j' hy hdeclaring hj'
    obtain ⟨v, hv⟩ := hy.1.stored_of_declaring hdeclaring hj'
    exact ⟨v, hv, hy.log⟩
  have hreplay := h.frames ▸ hlookup
  rcases Event.last_store hreplay with ⟨before, s, after, hlog, hsj, hsx, rfl, hno⟩ | ⟨-, hinit⟩
  · exact ⟨before, s, after, hlog, hsj, hname ▸ hsx, hstep, fun s' hs' => hname ▸ hno s' hs'⟩
  · rw [lookup?_initial hne] at hinit
    cases hinit

/-- The next step reads a local variable of a name, and the value is `true`. -/
def Machine.readsTrue (x : String) (setting : Setting) (m : Machine) : Bool :=
  match m.control, (m.step setting).control with
  | .eval (.variable ⟨name, some _⟩), .value (.bool true) => name.lexeme = x
  | _, _ => false

/-- Two cells have variables of their own: the second call to the first cell reads what the first
one stored, and not what the call to the second cell stored in between. -/
theorem variable_reads_last_store_of_cell :
    ∃ m log t, Moment false [] (.run true ⟨40, 40, ⟨100, fun _ => 0⟩, 1000⟩ "a.lox"
        "fun cell(v) { fun swap(w) { var old = v; v = w; return old; } return swap; }
          var a = cell(nil); var b = cell(nil); a(true); b(false); a(nil);") m log ∧
      Stage.Met (·.isTree) ⟨m, log, t⟩ ∧
      ∃ s, .stored s ∈ log ∧ s.frame ∈ t.here ∧ s.name = "v" ∧ s.value = .bool true ∧
        (m.step ⟨100, fun _ => 0⟩).control = .value s.value := by
  have hmet : ((Session.start false).machine? (.run true ⟨40, 40, ⟨100, fun _ => 0⟩, 1000⟩ "a.lox"
      "fun cell(v) { fun swap(w) { var old = v; v = w; return old; } return swap; }
          var a = cell(nil); var b = cell(nil); a(true); b(false); a(nil);") 98).any
        (·.readsTrue "v" ⟨100, fun _ => 0⟩) := by
    decide +kernel
  obtain ⟨m, hm, h⟩ := (Option.any_eq_true _ _).1 hmet
  obtain ⟨log, hmoment⟩ : ∃ log, Moment false [] _ m log := ⟨_, 98, hm, rfl⟩
  unfold Machine.readsTrue at h
  split at h
  · next name _ hc hv =>
    obtain ⟨⟨t, ht⟩, hreads⟩ := variable_reads_last_store hmoment hc rfl ⟨100, fun _ => 0⟩
    obtain ⟨r, σ, j, ρ, D, -, hr, -, -, hD, -, hj, -, -, -, ⟨before, s, after, hlog, rfl, hs, hstep,
      -⟩, -⟩ := hreads _ t ht
    refine ⟨m, log, t, hmoment, ht, s, by simp [hlog], List.mem_of_getElem? hj, ?_, ?_, hstep⟩
    · exact hs.trans (hD.trans (of_decide_eq_true h))
    · exact Control.value.inj (hstep.symm.trans hv)
  · cases h

end LoxLang
