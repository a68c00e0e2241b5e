import LoxLang.Proofs.KeywordStores
import LoxLang.Proofs.MethodCalls

/-!
# Bound receivers

Receivers and superclasses are bound statically (`receivers_bound_statically`). Whenever code is
evaluated that stands in a method, however deep in blocks and functions, the activation of the
method that is around it on the trail was opened by one call of the method. There `this` is the
receiver that the method was bound to before the call, and `super` looks methods up from the
superclass that the class declaration evaluated when it made the method.
-/

namespace LoxLang

/-- The task in hand is a node that was resolved at a site, in the frames of the site. -/
structure Machine.Evaluates (V : Node → Site → Prop) (R : List Region) (m : Machine) (n : Node)
    (σ : Site) : Prop where
  visited : V n σ
  task : n.taskAt σ = some m.control
  frames : At R m.heap m.frame σ

/-- A node in hand was resolved at a site, and the machine is in the frames of the site. -/
theorem Sound.evaluates (hs : Sound V R m) (hc : m.control.isNode) :
    ∃ n σ, m.Evaluates V R n σ := by
  obtain ⟨control, stack, frame, heap, printed, callToken⟩ := m
  obtain ⟨-, hctl⟩ := hs
  cases hctl with
  | eval he ha => exact ⟨_, _, he, rfl, ha⟩
  | exec ht ha => exact ⟨_, _, ht, rfl, ha⟩
  | _ => cases hc

theorem Machine.Evaluates.node_super {m : Machine} (hn : m.Evaluates V R n σ)
    (hc : m.control = .eval (.super keyword x)) : ∃ k, n = .expr (.super k x) := by
  have htask := hn.task.trans (congrArg some hc)
  cases n with
  | expr e =>
    obtain ⟨k, rfl⟩ := Site.super_of_expr (Control.eval.inj (Option.some.inj htask))
    exact ⟨k, rfl⟩
  | _ => cases htask

/-- Only a class declaration without a superclass is resolved to one. -/
theorem Site.base_of_stmt {σ : Site} {t : Stmt} (h : σ.stmt t = .classDecl name none ms) :
    ∃ fs, t = .classDecl name none fs := by
  cases t with
  | classDecl name' r fs =>
    rw [Site.stmt_classDecl] at h
    cases r with
    | none => cases h; exact ⟨fs, rfl⟩
    | some r => cases h
  | returning k e => cases e <;> simp at h
  | varDecl x e => cases e <;> simp at h
  | _ => simp at h

/-- A class without a superclass is declared in a frame that is not around methods. -/
theorem Sound.base_frame (hs : Sound V R m) (hw : Walked V) (hd : m.Declares name none methods) :
    ∃ ρ, R[m.frame]? = some ρ ∧ ρ.aroundMethods = false := by
  obtain ⟨control, stack, frame, heap, printed, callToken⟩ := m
  obtain ⟨hh, hctl⟩ := hs
  cases hd with
  | base hc =>
    cases hc
    generalize he : Stmt.classDecl name none methods = t' at hctl
    cases hctl with
    | @exec t σ _ _ hvisited ha =>
      obtain ⟨fs, rfl⟩ := Site.base_of_stmt he.symm
      have hdeclared := (hw.fits hvisited).declared
      rcases Mirrors.head_region ha with ⟨rfl, -⟩ | ⟨ρ, hρ, hhead⟩
      · exact ⟨_, hh.region, rfl⟩
      · have hname := hdeclared ρ hhead name List.mem_cons_self
        refine ⟨ρ, hρ, ?_⟩
        cases ρ with
        | receiver | superclass => cases hname
        | _ => rfl

theorem Execution.base_frame
    (h : Execution (MetIn colored acts) log m name none methods) :
    ∃ ρ, (Region.globals :: Event.regions log)[m.frame]? = some ρ ∧ ρ.aroundMethods = false := by
  obtain ⟨before, ⟨earlier, a, -, hmoment⟩, rest, rfl⟩ := h.onRecord
  obtain ⟨ρ, hρ, hmethods⟩ := hmoment.sound.base_frame (walked_visitedIn _) h.declares
  refine ⟨ρ, ?_, hmethods⟩
  rw [List.append_assoc, Event.regions_append, ← List.cons_append]
  exact List.getElem?_append_left (List.getElem?_eq_some_iff.1 hρ).1 ▸ hρ

/-- The superclass of a class is stored when the class is declared. -/
theorem Execution.super_stored (h : Execution Met log m name (some c) methods) :
    .stored ⟨m.size, "super", .cls c, .superclass⟩ ∈ log := by
  obtain ⟨before, -, rest, rfl⟩ := h.onRecord
  rw [Machine.events_of_declares h.declares]
  simp [Machine.declareClassEvents]

/-- What `super` is in the frame of the methods of a class: the superclass, which there is. -/
theorem Execution.super_value {V : Node → Site → Prop}
    (h : Execution (MetIn colored acts) log declaring name superclass methods)
    (hk : Known log) (hr : Recorded V log m) (hw : Walked V)
    (hregion : (Region.globals :: Event.regions log)[declaring.methodFrame superclass]? =
      some (.superclass title fs))
    (hlookup : m.heap.frames.lookup? (declaring.methodFrame superclass) "super" = some v) :
    ∃ c, superclass = some c ∧ v = .cls c := by
  cases superclass with
  | none =>
    -- The methods are over the frame of the declaration, which no superclass was stored in.
    obtain ⟨ρ, hρ, hno⟩ := h.base_frame
    cases hregion.symm.trans hρ
    cases hno
  | some c => exact ⟨c, rfl, hk.value hr hw hlookup (by decide) h.super_stored rfl⟩

/-- Code in a method has around it the activation of a call of the method, which is bound to an
instance. -/
theorem Moment.methodCall (h : Moment colored acts a m log)
    (ht : Stage.Met Control.FromText ⟨m, log, t⟩)
    (ha : At (.globals :: Event.regions log) m.heap m.frame σ) (hin : σ.Within f d) :
    ∃ frame, t.here[d]? = some frame ∧ m.heap.frames.frameAt m.frame d = .ok frame ∧
      ∃ declaring superclass object, Stage.MethodCall Control.FromText ⟨m, log, t⟩ declaring
        superclass f (.object object) frame := by
  obtain ⟨frame, hframe, hregion⟩ := Mirrors.region ha hin.body
  obtain ⟨j, hj, hreceiver⟩ := Mirrors.region ha hin.receiver
  have hne : frame ≠ Heap.globals := by
    rintro rfl
    cases hregion
  refine ⟨frame, ht.agrees.here.getElem?_of_frameAt hframe hne, hframe, ?_⟩
  obtain ⟨declaring, superclass, receiver, hcall⟩ :=
    ht.exists_methodCall hregion (Mirrors.enclosing ha hin.receiver hframe hj) hreceiver
  -- The receiver is what was stored in its frame, an instance.
  obtain ⟨object, hstored⟩ := h.known.receivers hreceiver
  obtain ⟨j', hj', hthis, -⟩ := hcall.frames
  obtain ⟨_, hf, -⟩ := Option.bind_eq_some_iff.1 hthis
  cases hj.symm.trans (Frames.frameAt_link hframe hj' hf)
  obtain rfl := h.known.value h.recorded (walked_visitedIn _) hthis (by decide) hstored rfl
  exact ⟨declaring, superclass, object, hcall⟩

/-- The call of the method that code stands in decides what `this` and `super` are there. Code that
uses them stands in a method of the innermost class declaration around it, so many scopes out, and
the activation that is so many out on the trail is the one of a call of this method: of the closure
that was made when the method was bound to an instance, by an access or by `super`, or of a class
that made the instance. Whenever and wherever the code is evaluated, in the call or later in a
closure of it, `this` is the receiver of this call; and `super` looks a method up from the
superclass that the execution of the class declaration evaluated, whatever the class of the receiver
is, and binds it to the receiver. -/
theorem receivers_bound_statically (h : Moment colored acts a m log) (hc : m.control.isNode)
    (setting : Setting) :
    let V := VisitedIn (acts ++ [a])
    (∃ n σ, m.Evaluates V (.globals :: Event.regions log) n σ) ∧
    (∃ t, Stage.Met Control.FromText ⟨m, log, t⟩) ∧
    ∀ n σ, m.Evaluates V (.globals :: Event.regions log) n σ →
      (n.isKeyword → ∃ name r fs f d, MethodOf V name r fs f ∧ σ.Within f d) ∧
      ∀ t, Stage.Met Control.FromText ⟨m, log, t⟩ →
        let Call := Stage.MethodCall Control.FromText ⟨m, log, t⟩
        ∀ f d, σ.Within f d → ∃ frame, t.here[d]? = some frame ∧
          m.heap.frames.frameAt m.frame d = .ok frame ∧
          (∃ declaring superclass object, Call declaring superclass f (.object object) frame) ∧
          ∀ declaring superclass receiver, Call declaring superclass f receiver frame →
            (∀ k, n = .expr (.this k) → m.step setting = m.yield receiver) ∧
            ∀ k x, n = .expr (.super k x) → ∃ c, superclass = some c ∧
              (∀ i, m.heap.method? c x.lexeme = some i →
                (∃ method, m.heap.closures[i]? = some method) ∧
                  m.step setting = m.bindMethod i receiver) ∧
              (m.heap.method? c x.lexeme = none →
                m.step setting = m.error x (.undefinedProperty x.lexeme)) := by
  intro V
  have hw := walked_visitedIn (acts ++ [a])
  refine ⟨h.sound.evaluates hc, h.stage fun _ _ hn => hn.fromText, fun n σ hn =>
    ⟨fun hkeyword => ?_, fun t ht f d hin => ?_⟩⟩
  · obtain ⟨name, r, fs, f, d, hf, hinside⟩ := hn.visited.exists_methodOf hw hkeyword
    exact ⟨name, r, fs, f, d, hf, hinside.toWithin⟩
  · obtain ⟨frame, hhere, hframe, hcall⟩ := h.methodCall ht hn.frames hin
    refine ⟨frame, hhere, hframe, hcall, fun declaring superclass receiver hcall => ?_⟩
    have hthis := hcall.this hframe
    constructor
    · rintro k rfl
      have hinside := hn.visited.insideMethod hw rfl hin
      obtain ⟨hexpr, hx⟩ := (hw.fits hn.visited).expr_this hinside
      have hcontrol : m.control = .eval (.this ⟨k.name, some (d + 1)⟩) := by
        rw [← Option.some.inj hn.task, hexpr]
      simp only [Machine.step, hcontrol, Machine.evaluate, Machine.read, hx, hthis]
    · rintro k x rfl
      have hinside := hn.visited.insideMethod hw rfl hin
      obtain ⟨hexpr, -, _, _, hregion⟩ := (hw.fits hn.visited).expr_super hinside
      obtain ⟨home, hhome, hregion⟩ := Mirrors.region hn.frames hregion
      obtain ⟨c, rfl, hsuper⟩ := hcall.super hframe hhome hregion
      have hcontrol : m.control = .eval (.super ⟨k.name, some (d + 2)⟩ x) := by
        rw [← Option.some.inj hn.task, hexpr]
      refine ⟨c, rfl, fun i hi => ?_, fun hnone => ?_⟩
      · obtain ⟨method, hmethod, -⟩ := h.sound.heap.method? hi
        refine ⟨⟨method, hmethod⟩, ?_⟩
        simp only [Machine.step, hcontrol, Machine.evaluate, Machine.superMethod, hsuper,
          Nat.add_succ_sub_one, hthis, hi]
      · simp only [Machine.step, hcontrol, Machine.evaluate, Machine.superMethod, hsuper,
          Nat.add_succ_sub_one, hthis, hnone]

/-- The next step looks a method of a name up from `super`, and finds it. -/
def Machine.findsSuper (x : String) (setting : Setting) (m : Machine) : Bool :=
  match m.control, (m.step setting).control with
  | .eval (.super _ method), .value (.closure _) => method.lexeme = x
  | _, _ => false

/-- The method of an instance of a subclass is kept in a variable and called; in a closure that it
returns, `super` is evaluated after the call. -/
theorem receivers_bound_statically_in_closure :
    let a : Act := .run true ⟨40, 40, ⟨100, fun _ => 0⟩, 1000⟩ "a.lox"
      "class A { m() { return this; } }
       class B < A { m() { fun f() { return super.m; } return f; } }
       class C < B { } var m = C().m; var f = m(); f();"
    ∃ m log t, Moment false [] a m log ∧ Stage.Met Control.FromText ⟨m, log, t⟩ ∧
      ∃ declaring c f object frame i, frame ∈ t.here ∧
        Stage.MethodCall Control.FromText ⟨m, log, t⟩ declaring (some c) f (.object object) frame ∧
        m.heap.method? c "m" = some i ∧
        m.step ⟨100, fun _ => 0⟩ = m.bindMethod i (.object object) := by
  intro a
  have hmet : ((Session.start false).machine? a 45).any (·.findsSuper "m" ⟨100, fun _ => 0⟩) := by
    decide +kernel
  obtain ⟨m, hm, h⟩ := (Option.any_eq_true _ _).1 hmet
  obtain ⟨log, hmoment⟩ : ∃ log, Moment false [] a m log := ⟨_, 45, hm, rfl⟩
  unfold Machine.findsSuper at h
  split at h
  · next keyword x i hc hv =>
    obtain ⟨⟨n, σ, hn⟩, ⟨t, ht⟩, hbound⟩ :=
      receivers_bound_statically hmoment (by rw [hc]; rfl) ⟨100, fun _ => 0⟩
    obtain ⟨k, rfl⟩ := hn.node_super hc
    obtain ⟨hkeyword, hcalls⟩ := hbound _ σ hn
    obtain ⟨_, _, _, f, d, -, hin⟩ := hkeyword rfl
    obtain ⟨frame, hhere, -, ⟨declaring, superclass, object, hcall⟩, hall⟩ := hcalls t ht f d hin
    obtain ⟨c, rfl, hfound, hmissing⟩ := (hall _ _ _ hcall).2 k x rfl
    have hx : x.lexeme = "m" := of_decide_eq_true h
    cases hi : m.heap.method? c x.lexeme with
    | none => rw [hmissing hi] at hv; cases hv
    | some i =>
      exact ⟨m, log, t, hmoment, ht, declaring, c, f, object, frame, i, List.mem_of_getElem? hhere,
        hcall, hx ▸ hi, (hfound i hi).2⟩
  · cases h

end LoxLang
