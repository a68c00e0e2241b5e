import LoxLang.Proofs.Stages

/-!
# Frames mirror scopes

Whenever a node of an accepted source is evaluated, in whatever call, closure or bound method, there
is one frame for each scope that the resolver had around the node, in order, and then the frame of
the globals (`frames_mirror_scopes`). These are the frames of the activations around the node, as
its trail has them, so a number of scopes leads to the frame of the activation of the scope that
declares the name.
-/

namespace LoxLang

/-- The name that an expression itself refers to. -/
def Expr.reference? : Expr → Option Reference
  | .assign r _ | .super r _ | .this r | .variable r => some r
  | _ => none

/-- Whether the task in hand is to evaluate an expression or to execute a statement. -/
def Control.isNode : Control → Bool
  | .eval _ | .exec _ => true
  | _ => false

def Control.reference? : Control → Option Reference
  | .eval e => e.reference?
  | _ => none

/-- The task of evaluating or executing a node that was resolved at a site. -/
def Node.taskAt (σ : Site) : Node → Option Control
  | expr e => some (.eval (σ.expr e))
  | stmt s => some (.exec (σ.stmt s))
  | _ => none

/-- The names of a region are those that its scope ever has. -/
theorem Layers.names {scope : Scope} {d : Nat} (h : Layers k Γ ρs) (hd : Γ[d]? = some scope)
    (hx : scope.contains x) : ∃ ρ, ρs[d]? = some ρ ∧ x ∈ Region.names ρ := by
  have hkeyword (y : String) (hy : Bindings.contains x [(y, true)]) : x = y := by
    simp only [Bindings.contains, Bindings.get?_cons] at hy
    split at hy
    · next h => exact h.symm
    · cases hy
  induction h generalizing d with
  | globals => cases hd
  | @inner _ _ _ _ ρ _ hnames _ ih =>
    cases d with
    | succ d => exact ih hd
    | zero =>
      cases hd
      obtain ⟨t, ht, rfl⟩ := hnames x hx
      refine ⟨ρ, rfl, ?_⟩
      cases ρ with
      | block | call => exact List.mem_map_of_mem ht
      | _ => cases ht
  | base _ ih =>
    cases d with
    | zero => cases hd; exact ⟨_, rfl, by simp [Region.names, hkeyword _ hx]⟩
    | succ d => exact ih hd
  | derived _ ih =>
    rcases d with _ | _ | d
    · cases hd; exact ⟨_, rfl, by simp [Region.names, hkeyword _ hx]⟩
    · cases hd; exact ⟨_, rfl, by simp [Region.names, hkeyword _ hx]⟩
    · exact ih hd

/-- A resolved reference has the number of scopes to the nearest one with its name. -/
theorem Fits.distance?_of_reference? (h : Fits (.expr e) σ) (hr : (σ.expr e).reference? = some r)
    (hd : r.hops = some d) : Scope.distance? σ.scopes r.name.lexeme = some d := by
  have hw := h.wellFormed
  cases e with
  | assign target value =>
    simp only [Node.WellFormed, Expr.WellFormed] at hw
    rw [Site.expr_assign] at hr
    cases hr
    exact (Reference.hops_resolve hw.1.hops _).symm.trans hd
  | super keyword method =>
    simp only [Node.WellFormed, Expr.WellFormed] at hw
    rw [Site.expr_super] at hr
    cases hr
    exact (Reference.hops_resolve hw.hops _).symm.trans hd
  | this keyword =>
    simp only [Node.WellFormed, Expr.WellFormed] at hw
    simp only [Site.expr, Expr.resolve] at hr
    split at hr
    · cases hr
      rw [hw.hops] at hd
      cases hd
    · cases hr
      exact (Reference.hops_resolve hw.hops _).symm.trans hd
  | «variable» target =>
    simp only [Node.WellFormed, Expr.WellFormed] at hw
    rw [Site.expr_variable] at hr
    cases hr
    exact (Reference.hops_resolve hw.hops _).symm.trans hd
  | missing => simp only [Node.WellFormed, Expr.WellFormed] at hw
  | _ => simp [Expr.reference?] at hr

/-- A frame other than that of the globals, made for the region of a scope that has the name. -/
theorem At.selects (hh : HeapOk V R h) (ha : At R h i σ) (hf : Fits n σ)
    (hd : Scope.distance? σ.scopes x = some d) :
    ∃ j ρ, h.frames.frameAt i d = .ok j ∧ j ≠ Heap.globals ∧ R[j]? = some ρ ∧
      σ.regions[d]? = some ρ ∧ x ∈ ρ.names := by
  obtain ⟨scope, hscope, hx⟩ := Scope.contains_of_distance? hd
  obtain ⟨j, hj, hm⟩ := ha.frameAt hscope
  obtain ⟨ρ, hρ, hname⟩ := hf.layers.names hscope hx
  obtain ⟨bs, hglobals⟩ := hh.globals
  rw [← List.head?_drop] at hρ
  obtain ⟨ρs, hρs⟩ := List.head?_eq_some_iff.1 hρ
  rw [hρs] at hm
  cases hm with
  | inner hframe hregion =>
    refine ⟨j, ρ, hj, ?_, hregion, by rw [← List.head?_drop, hρ], hname⟩
    rintro rfl
    rw [hglobals] at hframe
    cases hframe

/-- A name is pending only where the superclass of its class is looked up. -/
theorem Visited.pending_cases (hroots : ∀ n, roots n → Fits n .topLevel) (h : Visited roots n σ) :
    σ.pending = none ∨ ∃ name r fs σ', n = .expr (.variable r) ∧ σ = σ'.inSuperclass name ∧
      Visited roots (.stmt (.classDecl name (some r) fs)) σ' := by
  cases h with
  | root => exact .inl rfl
  | asks hv ha =>
    have hf := hv.fits hroots
    cases ha with
    | superclass => exact .inr ⟨_, _, _, _, rfl, rfl, hv⟩
    | _ => exact .inl (hf.pending_eq_none rfl)

/-- Frames that mirror scopes are those of a place with one activation of each scope. -/
theorem Mirrors.path {h : Heap} (hm : Mirrors R h.frames lacking i Γ ρs) :
    ∃ place, h.Path i place ∧ place.length = ρs.length ∧
      ∀ k j : Nat, place[k]? = some j → R[j]? = ρs[k]? := by
  induction hm with
  | globals hf => exact ⟨[], .globals (Option.map_eq_some_iff.2 ⟨_, hf, rfl⟩), rfl, nofun⟩
  | @inner i _ _ _ _ _ _ _ hf hρ _ _ ih =>
    obtain ⟨place, hp, hlength, hregions⟩ := ih
    refine ⟨i :: place, .inside hf hp, congrArg (· + 1) hlength, fun k j hj => ?_⟩
    cases k with
    | zero => cases hj; exact hρ
    | succ k => exact hregions k j hj

theorem Moment.exists_stage (h : Moment colored acts a m log) :
    ∃ t, Stage.Met (·.isTree) ⟨m, log, t⟩ :=
  h.stage fun _ _ hn => by cases hn <;> rfl

/-- At every moment at which a node is evaluated, the node is one that the resolver visited, and the
frames from the current one to the globals mirror the scopes that were around it there: each binds
every name that the scope had ready, but for the name of a class while its superclass is looked up.
A number of scopes selects a frame that was made for the scope that declares the name, never that of
the globals. The trail has one activation for each of the scopes around, and so many links lead to
the activation that is so many out. -/
theorem frames_mirror_scopes (h : Moment colored acts a m log) (hc : m.control.isNode) :
    ∃ n σ, VisitedIn (acts ++ [a]) n σ ∧ n.taskAt σ = some m.control ∧
      Mirrors (.globals :: Event.regions log) m.heap.frames σ.pending m.frame σ.scopes
        σ.regions ∧
      (σ.pending = none ∨ ∃ name r fs σ', n = .expr (.variable r) ∧ σ = σ'.inSuperclass name ∧
        VisitedIn (acts ++ [a]) (.stmt (.classDecl name (some r) fs)) σ') ∧
      (∀ r d, m.control.reference? = some r → r.hops = some d →
        ∃ j ρ, m.heap.frames.frameAt m.frame d = .ok j ∧ j ≠ Heap.globals ∧
          (Region.globals :: Event.regions log)[j]? = some ρ ∧ σ.regions[d]? = some ρ ∧
          r.name.lexeme ∈ ρ.names) ∧
      (∃ t, Stage.Met (·.isTree) ⟨m, log, t⟩) ∧
      ∀ P t, Stage.Met P ⟨m, log, t⟩ →
        t.here.length = σ.regions.length ∧
        ∀ k j, t.here[k]? = some j → m.heap.frames.frameAt m.frame k = .ok j ∧
          (Region.globals :: Event.regions log)[j]? = σ.regions[k]? := by
  have hw := walked_visitedIn (acts ++ [a])
  have hroots : ∀ n, (∃ b ∈ acts ++ [a], b.Roots n) → Fits n .topLevel := fun _ ⟨_, _, h⟩ => h.fits
  have hstage := h.exists_stage
  have htrail {σ : Site} (ha : At (.globals :: Event.regions log) m.heap m.frame σ)
      (P : Control → Prop) (t : Trail) (ht : Stage.Met P ⟨m, log, t⟩) :
      t.here.length = σ.regions.length ∧
        ∀ k j, t.here[k]? = some j → m.heap.frames.frameAt m.frame k = .ok j ∧
          (Region.globals :: Event.regions log)[j]? = σ.regions[k]? := by
    obtain ⟨place, hp, hlength, hregions⟩ := Mirrors.path ha
    obtain rfl := hp.unique ht.agrees.here
    exact ⟨hlength, fun k j hj => ⟨hp.frameAt hj, hregions k j hj⟩⟩
  obtain ⟨hh, hctl⟩ := h.sound
  obtain ⟨control, stack, frame, heap, printed, callToken⟩ := m
  cases hctl with
  | @eval e σ _ _ he ha hs =>
    refine ⟨_, σ, he, rfl, ha, he.pending_cases hroots, fun r d hr hd => ?_, hstage, htrail ha⟩
    exact ha.selects hh (hw.fits he) ((hw.fits he).distance?_of_reference? hr hd)
  | @exec t σ _ _ ht ha hs =>
    exact ⟨_, σ, ht, rfl, ha, ht.pending_cases hroots, nofun, hstage, htrail ha⟩
  | run | value | returning | failing => cases hc

/-- A closure that is called after its block has ended refers to a variable of the block. -/
theorem frames_mirror_scopes_after_block :
    ∃ m log, Moment false [] (.run true ⟨40, 40, ⟨100, fun _ => 0⟩, 1000⟩ "a.lox"
        "var g; { var x = nil; fun f() { return x; } g = f; } g();") m log ∧
      (m.control.reference?.bind Reference.hops) = some 1 ∧
      ∃ (n : Node) (σ : Site), n.taskAt σ = some m.control ∧
        Mirrors (.globals :: Event.regions log) m.heap.frames σ.pending m.frame σ.scopes
          σ.regions := by
  have hmet : ((Session.start false).machine? (.run true ⟨40, 40, ⟨100, fun _ => 0⟩, 1000⟩ "a.lox"
      "var g; { var x = nil; fun f() { return x; } g = f; } g();") 29).any fun m =>
        m.control.isNode && (m.control.reference?.bind Reference.hops) = some 1 := by
    decide +kernel
  obtain ⟨m, hm, h⟩ := (Option.any_eq_true _ _).1 hmet
  obtain ⟨hnode, hhops⟩ := (Bool.and_eq_true _ _).mp h
  have hmoment : Moment false [] _ m _ := ⟨29, hm, rfl⟩
  obtain ⟨n, σ, -, htask, hmirrors, -⟩ := frames_mirror_scopes hmoment hnode
  exact ⟨m, _, hmoment, of_decide_eq_true hhops, n, σ, htask, hmirrors⟩

end LoxLang
