import LoxLang.Proofs.FramesMirrorScopes
import LoxLang.Proofs.StoringSteps

/-!
# Global names

What a source binds in the frame of the globals it binds by the declarations that stand at its top
level (`globals_only_declared`); an assignment reaches the globals only without a number of scopes,
and then the name is bound there already. Of what was visited, the statements that stand in no scope
are followed (`Outermost`): the machine is in the frame of the globals only at such a statement, so
a declaration that is executed there is one of the source that runs, and not one of an earlier
source.
-/

namespace LoxLang

/-- The name that a statement declares, if it is a `var`, `fun` or `class` statement. -/
def Stmt.declaration? : Stmt → Option Token
  | .varDecl name _ => some name
  | .function f => some f.name
  | .classDecl name _ _ => some name
  | _ => none

namespace Act

/-- The statements at the top level of a source that is run, as they are read. -/
def program : Act → List Stmt
  | .run _ cfg _ source =>
    (Grammar.readProgram cfg.room (scan source.toList).tokens).value?.getD []
  | _ => []

/-- The statements at the top level of a source that is run, with their references resolved. -/
def statements (a : Act) : List Stmt := (resolveProgram a.program).1

/-- The names that are declared at the top level of a source. -/
def declarations (a : Act) : List Token := a.program.filterMap Stmt.declaration?

end Act

/-- The next step binds a global name: by a declaration that is among the statements, or by an
assignment without a number of scopes to a name that is bound already. -/
inductive Machine.BindsGlobal (m : Machine) (ss : List Stmt) : String → Prop where
  | declaration : m.frame = Heap.globals → st ∈ ss → m.Declaring st t → BindsGlobal m ss t.lexeme
  | assignment : m.Assigning r v → r.hops = none →
    m.heap.frames.lookup? Heap.globals r.name.lexeme = some u → BindsGlobal m ss r.name.lexeme

/-- The names of the global variables. -/
def Session.globalNames (s : Session) : List String := s.globals.map (·.1)

/-! ## Declarations of resolved statements -/

theorem Stmt.declaration?_resolve (around : Enclosing) (scopes : List Scope) (s : Stmt) :
    (s.resolve around scopes).tree.declaration? = s.declaration? := by
  cases s with
  | function f => cases f; rfl
  | _ => rfl

theorem declaration?_resolveStmts (around : Enclosing) (scopes : List Scope) (ss : List Stmt) :
    (resolveStmts around scopes ss).tree.map Stmt.declaration? = ss.map Stmt.declaration? := by
  induction ss generalizing scopes with
  | nil => rfl
  | cons s ss ih =>
    rw [resolveStmts, List.map_cons, List.map_cons, Stmt.declaration?_resolve, ih]

theorem Act.mem_declarations {a : Act} (hst : st ∈ a.statements) (ht : st.declaration? = some t) :
    t ∈ a.declarations := by
  have hmem : some t ∈ a.statements.map Stmt.declaration? := ht ▸ List.mem_map_of_mem hst
  rw [statements, resolveProgram, declaration?_resolveStmts] at hmem
  obtain ⟨s, hs, hdeclares⟩ := List.mem_map.1 hmem
  exact List.mem_filterMap.2 ⟨s, hs, hdeclares⟩

theorem Machine.Declaring.declaration? {m : Machine} (h : m.Declaring st t) :
    st.declaration? = some t := by
  cases h <;> rfl

theorem Scope.introduceEach_eq_nil (h : introduceEach names scopes = []) : scopes = [] := by
  cases scopes with
  | nil => rfl
  | cons scope outer =>
    obtain ⟨inner, hinner, -⟩ := introduceEach_scope names scope outer
    cases hinner.symm.trans h

theorem Scope.introduceEach_empty (names : List Token) : introduceEach names [] = [] := by
  induction names with
  | nil => rfl
  | cons t names ih => exact ih

theorem Scope.declare_eq_nil {scopes : List Scope} (h : declare x scopes = []) : scopes = [] := by
  cases scopes with
  | nil => rfl
  | cons => cases h

/-- A statement of a program is resolved in no scope. -/
theorem mem_resolveStmts (around : Enclosing) (ht : t ∈ ss) :
    (t.resolve around []).tree ∈ (resolveStmts around [] ss).tree := by
  have hscopes (s : Stmt) : (s.resolve around []).scopes = [] :=
    (s.scopes_resolve around []).trans (Scope.introduceEach_empty _)
  induction ht with
  | head ss => exact List.mem_cons_self
  | @tail s ss _ ih =>
    rw [resolveStmts, hscopes]
    exact List.mem_cons_of_mem _ ih

/-! ## Statements in no scope -/

/-- The statements of a node that stand at the site of the node. -/
def Node.statements : Node → List Stmt
  | stmt s => [s]
  | stmts ss => ss
  | _ => []

/-- A visited node. If it stands in no scope, what its statements declare is declared by statements
of the program. -/
structure Outermost (V : Node → Site → Prop) (program : List Stmt) (n : Node) (σ : Site) :
    Prop where
  visited : V n σ
  outermost : σ.scopes = [] →
    ∀ t ∈ n.statements, σ.around = .topLevel ∧ (t.declared ≠ [] → t ∈ program)

namespace Outermost

variable {V : Node → Site → Prop} {program : List Stmt}

/-- A node without statements, or one that stands in a scope. -/
theorem inside (hv : V n σ) (h : σ.scopes = [] → n.statements = []) : Outermost V program n σ :=
  ⟨hv, fun hnil => by rw [h hnil]; exact List.forall_mem_nil _⟩

theorem walked (hw : Walked V) : Walked (Outermost V program) where
  fits h := hw.fits h.visited
  asks {n n' σ σ'} h ha := by
    have hv := hw.asks h.visited ha
    have hwf := (hw.fits h.visited).wellFormed
    cases ha with
    | block => exact inside hv nofun
    | body => exact inside hv fun hnil => nomatch Scope.introduceEach_eq_nil hnil
    | thenBranch =>
      simp only [Node.WellFormed, Stmt.WellFormed] at hwf
      refine ⟨hv, fun hnil => List.forall_mem_singleton.2 ?_⟩
      exact ⟨(h.outermost hnil _ List.mem_cons_self).1, fun hne => absurd hwf.2.1.2 hne⟩
    | elseBranch =>
      simp only [Node.WellFormed, Stmt.WellFormed] at hwf
      refine ⟨hv, fun hnil => List.forall_mem_singleton.2 ?_⟩
      rw [Site.after_of_contained hwf.2.1.2] at hnil ⊢
      exact ⟨(h.outermost hnil _ List.mem_cons_self).1, fun hne => absurd hwf.2.2.2 hne⟩
    | whileBody =>
      simp only [Node.WellFormed, Stmt.WellFormed] at hwf
      refine ⟨hv, fun hnil => List.forall_mem_singleton.2 ?_⟩
      exact ⟨(h.outermost hnil _ List.mem_cons_self).1, fun hne => absurd hwf.2.2 hne⟩
    | firstStmt =>
      refine ⟨hv, fun hnil => List.forall_mem_singleton.2 ?_⟩
      exact h.outermost hnil _ List.mem_cons_self
    | otherStmts =>
      refine ⟨hv, fun hnil t ht => ?_⟩
      rw [Site.after_eq] at hnil ⊢
      exact h.outermost (Scope.introduceEach_eq_nil hnil) t (List.mem_cons_of_mem _ ht)
    | _ => exact inside hv fun _ => rfl

/-- A root is one of the program of its act. -/
theorem root (hv : V n .topLevel) (hn : Act.Roots a n) : Outermost V a.program n .topLevel := by
  cases hn with
  | run h => exact ⟨hv, fun _ t ht => ⟨rfl, fun _ => by rw [Act.program, h.read]; exact ht⟩⟩
  | evaluate => exact inside hv fun _ => rfl

/-- A statement in no scope that declares something is one of the program. -/
theorem mem (h : Outermost V program (.stmt t) σ) (hnil : σ.scopes = []) (hd : t.declared ≠ []) :
    σ.stmt t ∈ (resolveProgram program).1 := by
  obtain ⟨haround, hmem⟩ := h.outermost hnil t List.mem_cons_self
  rw [Site.stmt, hnil, haround]
  exact mem_resolveStmts .topLevel (hmem hd)

end Outermost

/-- Around the globals there is no scope. -/
theorem At.scopes_eq_nil (hh : HeapOk V R h) (ha : At R h Heap.globals σ) : σ.scopes = [] := by
  obtain ⟨bs, hbs⟩ := hh.globals
  unfold At at ha
  generalize σ.scopes = Γ, σ.regions = ρs at ha
  cases ha with
  | globals => rfl
  | inner hf => cases hbs.symm.trans hf

/-! ## Declarations among the globals -/

section
variable {V : Node → Site → Prop} {program : List Stmt} {R : List Region} {m : Machine}

theorem Sound.mem_of_exec (hm : Sound (Outermost V program) R m) (hf : m.frame = Heap.globals)
    (hc : m.control = .exec st) (hd : st.declared ≠ []) : st ∈ (resolveProgram program).1 := by
  have hcontrol := hm.control
  rw [hc, hf] at hcontrol
  cases hcontrol with
  | @exec t σ _ _ hv ha =>
    rw [Site.stmt, Stmt.declared_resolve] at hd
    exact hv.mem (ha.scopes_eq_nil hm.heap) hd

/-- What is declared among the globals is declared by a statement of the program. -/
theorem Sound.mem_of_declaring (hm : Sound (Outermost V program) R m)
    (hf : m.frame = Heap.globals) (hd : m.Declaring st t) :
    ∃ st ∈ (resolveProgram program).1, m.Declaring st t := by
  cases hd with
  | «variable» hc => exact ⟨_, hm.mem_of_exec hf hc (List.cons_ne_nil _ _), .variable hc⟩
  | function hc => exact ⟨_, hm.mem_of_exec hf hc (List.cons_ne_nil _ _), .function hc⟩
  | initialized e hc hs =>
    have hcontrol := hm.control
    rw [hc, hs, hf] at hcontrol
    cases hcontrol with
    | value _ ha hstack =>
      cases hstack with
      | waiting hj =>
        cases hj with
        | define hv =>
          have hnil := Scope.declare_eq_nil (ha.scopes_eq_nil hm.heap)
          have hmem := hv.mem hnil (List.cons_ne_nil _ _)
          rw [Site.stmt_varDecl_some] at hmem
          exact ⟨_, hmem, .initialized _ hc hs⟩
  | «class» parent hdeclares =>
    cases hdeclares with
    | base hc =>
      exact ⟨_, hm.mem_of_exec hf hc (List.cons_ne_nil _ _), .class none (.base hc) rfl⟩
    | derived hc hs =>
      have hcontrol := hm.control
      rw [hc, hs, hf] at hcontrol
      cases hcontrol with
      | value _ ha hstack =>
        cases hstack with
        | waiting hj =>
          cases hj with
          | superclass _ hv =>
            have hnil : Scope.introduceEach [t] _ = [] := ha.scopes_eq_nil hm.heap
            have hmem := hv.mem (Scope.introduceEach_eq_nil hnil) (List.cons_ne_nil _ _)
            rw [Site.stmt_classDecl] at hmem
            exact ⟨_, hmem, .class _ (.derived hc hs) rfl⟩

/-- An assignment with a number of scopes does not reach the globals. -/
theorem Sound.target?_ne_globals (hw : Walked V) (hm : Sound V R m) (ha : m.Assigning r v)
    (hd : r.hops = some d) : m.target? r ≠ some Heap.globals := by
  obtain ⟨target, e, σ, rfl, hv, hat⟩ := hm.assigning ha
  have hf := hw.fits hv
  have hdistance := hf.distance?_of_reference? (by rw [Site.expr_assign]; rfl) hd
  obtain ⟨j, -, hj, hne, -⟩ := hat.selects hm.heap hf hdistance
  rw [Ne, Machine.target?_of_hops hd, hj]
  exact fun h => hne (Except.ok.inj h)

/-- What a step stores in the frame of the globals. -/
theorem Sound.bindsGlobal (hw : Walked V) (hm : Sound (Outermost V program) R m)
    (he : m.Stores e) (hg : e.frame = Heap.globals) :
    m.BindsGlobal (resolveProgram program).1 e.name := by
  have hsize : Heap.globals < m.size := hm.heap.region_lt hm.heap.region
  cases he with
  | declaration hd =>
    obtain ⟨st, hst, hd⟩ := hm.mem_of_declaring hg hd
    exact .declaration hg hst hd
  | @assignment r v j ha hj =>
    have hg : j = Heap.globals := hg
    subst hg
    cases hd : r.hops with
    | some d => exact absurd hj (hm.target?_ne_globals (Outermost.walked hw) ha hd)
    | none =>
      rw [Machine.target?_of_global hd] at hj
      obtain ⟨bs, hbs⟩ := hm.heap.globals
      obtain ⟨-, u, hu⟩ := (Frames.holder?_root_iff hbs).1 hj
      exact .assignment ha hd hu
  | parameter _ _ hj => exact absurd hg (Nat.ne_of_gt (Nat.lt_of_lt_of_le hsize hj))
  | receiver | superclass => exact absurd hg (Nat.ne_of_gt hsize)

end

/-! ## Sessions -/

/-- At every moment the declarations in no scope are those of the source that runs. -/
theorem Moment.outermost (h : Moment colored acts a m log) :
    Sound (Outermost (VisitedIn (acts ++ [a])) a.program) (.globals :: Event.regions log) m := by
  obtain ⟨k, hmachine, rfl⟩ := h.met
  have hm := Session.remembers_after colored acts [a]
  obtain ⟨⟨cfg, task⟩, ht, rfl⟩ := Option.map_eq_some_iff.1 hmachine
  obtain ⟨n, hn, rfl⟩ := Session.roots_of_task? ht
  have hheap : HeapOk (Outermost (VisitedIn (acts ++ [a])) a.program) _ _ :=
    hm.heap.mono fun f σ hv => .inside hv fun _ => rfl
  have hvisited : VisitedIn (acts ++ [a]) n .topLevel :=
    visitedIn_root (List.mem_append_right acts List.mem_cons_self) hn
  rw [Session.eventsWithin, ht, Event.regions_append, ← List.cons_append]
  exact (sound_start hheap hm.frame (.root hvisited hn) hn).run
    (Outermost.walked (walked_visitedIn _)) cfg.setting k

/-- What a step stores among the globals while an act runs. -/
theorem Moment.bindsGlobal (h : Moment colored acts a m log) (he : e ∈ Event.storings m.events)
    (hg : e.frame = Heap.globals) : m.BindsGlobal a.statements e.name :=
  h.outermost.bindsGlobal (walked_visitedIn _) (m.stores_events e he) hg

theorem Moment.bindsGlobal_of_change (h : Moment colored acts a m log) {s : Setting}
    (hx : (m.step s).heap.frames.lookup? Heap.globals x ≠ m.heap.frames.lookup? Heap.globals x) :
    m.BindsGlobal a.statements x := by
  obtain ⟨e, he, hg, rfl⟩ := Machine.stores_of_change h.sound.frame_lt hx
  exact h.bindsGlobal he hg

theorem Bindings.mem_names_iff {bs : Bindings α} : x ∈ bs.names ↔ ∃ a, bs.get? x = some a := by
  induction bs with
  | nil => simp [names, get?]
  | cons b bs ih =>
    obtain ⟨n, b⟩ := b
    rw [names] at ih ⊢
    rw [List.map_cons, List.mem_cons, ih, get?_cons]
    by_cases hx : n = x
    · simp [hx]
    · simp [hx, Ne.symm hx]

namespace Session

theorem mem_globalNames {s : Session} :
    x ∈ s.globalNames ↔ ∃ v, s.memory.heap.frames.lookup? Heap.globals x = some v := by
  unfold globalNames globals Frames.lookup?
  cases s.memory.heap.frames.frame? Heap.globals with
  | none => simp
  | some f =>
    rw [List.map_map]
    exact Bindings.mem_names_iff

/-- The global names after an act: those that there were, and those that its source declares at its
top level. -/
theorem globalNames_act (colored : Bool) (acts : List Act) (a : Act)
    (hx : x ∈ (((start colored).after acts).act a).globalNames) :
    x ∈ ((start colored).after acts).globalNames ∨ ∃ t ∈ a.declarations, t.lexeme = x := by
  rw [mem_globalNames, memory_act] at hx
  rw [mem_globalNames]
  cases ht : ((start colored).after acts).task? a with
  | none => exact .inl (by simpa only [ht] using hx)
  | some t =>
    obtain ⟨cfg, task⟩ := t
    simp only [ht] at hx
    let mem := ((start colored).after acts).memory
    let Known (h : Heap) : Prop := ∀ x, (∃ v, h.frames.lookup? Heap.globals x = some v) →
      (∃ v, mem.heap.frames.lookup? Heap.globals x = some v) ∨ ∃ t ∈ a.declarations, t.lexeme = x
    have hstep {m : Machine} {log : List Event} (hm : Moment colored acts a m log)
        (hknown : Known m.heap) (s : Setting) : Known (m.step s).heap := by
      rintro x ⟨v, hv⟩
      by_cases hchange : (m.step s).heap.frames.lookup? Heap.globals x =
          m.heap.frames.lookup? Heap.globals x
      · exact hknown x ⟨v, hchange ▸ hv⟩
      · cases hm.bindsGlobal_of_change hchange with
        | declaration _ hst hd => exact .inr ⟨_, Act.mem_declarations hst hd.declaration?, rfl⟩
        | assignment _ _ hu => exact hknown _ ⟨_, hu⟩
    have hmet (k : Nat) : Moment colored acts a ((mem.start task).run cfg.setting k)
        ((start colored).history acts ++ (mem.start task).eventsWithin cfg.setting k) :=
      ⟨k, by rw [machine?, ht]; rfl, by rw [eventsWithin, ht]⟩
    have hstart : Known (mem.start task).heap := fun x hx => .inl hx
    exact Machine.keeps_run (Q := fun _ => Known) @hstep hstart hmet cfg.steps x hx

end Session

/-- Locals never leak into the globals. In every session and for every act, however it ends, the
global names are those that there were and those that are declared at the top level of the source;
and at every moment what is stored among the globals is stored by one of these declarations, or by
an assignment without a number of scopes to a name that is bound already. -/
theorem globals_only_declared (colored : Bool) (acts : List Act) (a : Act) :
    let s := (Session.start colored).after acts
    (∀ x ∈ (s.act a).globalNames,
      x ∈ s.globalNames ∨ ∃ t ∈ a.declarations, t.lexeme = x) ∧
    ∀ m log, Moment colored acts a m log →
      (∀ e ∈ Event.storings m.events, e.frame = Heap.globals → m.BindsGlobal a.statements e.name) ∧
      ∀ (setting : Setting) (x : String),
        (m.step setting).heap.frames.lookup? Heap.globals x ≠
            m.heap.frames.lookup? Heap.globals x →
          m.BindsGlobal a.statements x := by
  refine ⟨fun x hx => Session.globalNames_act colored acts a hx, fun m log hm => ?_⟩
  exact ⟨fun e he hg => hm.bindsGlobal he hg, fun setting x hne => hm.bindsGlobal_of_change hne⟩

/-- A closure of an earlier source assigns a global from inside a block of the source that runs,
where each binds names of its own; then the source declares a global. -/
theorem globals_only_declared_of_closure :
    let acts : List Act := [.run true ⟨40, 40, ⟨100, fun _ => 0⟩, 1000⟩ "a.lox"
      "var a = true; fun f() { var b = a; a = nil; }"]
    let a : Act := .run true ⟨40, 40, ⟨100, fun _ => 0⟩, 1000⟩ "b.lox"
      "{ var c = f; c(); } var d = a;"
    (∃ m log e, (Moment false acts a m log ∧ e ∈ Event.storings m.events ∧
        e.frame = Heap.globals ∧ e.name = "a" ∧ m.frame ≠ Heap.globals) ∧
      m.BindsGlobal a.statements e.name) ∧
    ∃ m log x, (Moment false acts a m log ∧
        (m.step ⟨100, fun _ => 0⟩).heap.frames.lookup? Heap.globals x ≠
          m.heap.frames.lookup? Heap.globals x ∧ x = "d") ∧
      m.BindsGlobal a.statements x := by
  intro acts a
  have hassigns : (((Session.start false).after acts).machine? a 21).any fun m =>
      decide (m.frame ≠ Heap.globals) &&
        (Event.storings m.events).any fun e => e.frame = Heap.globals ∧ e.name = "a" := by
    decide +kernel
  have hdeclares : (((Session.start false).after acts).machine? a 32).any fun m =>
      ((m.step ⟨100, fun _ => 0⟩).heap.frames.lookup? Heap.globals "d").isSome &&
        (m.heap.frames.lookup? Heap.globals "d").isNone := by
    decide +kernel
  have hnames := (globals_only_declared false acts a).2
  obtain ⟨m, log, hmoment, hchecks⟩ := Moment.exists_of_any hassigns
  obtain ⟨m', log', hmoment', hchecks'⟩ := Moment.exists_of_any hdeclares
  simp only [Bool.and_eq_true, decide_eq_true_eq, List.any_eq_true] at hchecks
  simp only [Bool.and_eq_true, Option.isNone_iff_eq_none] at hchecks'
  obtain ⟨hframe, e, he, hg, hname⟩ := hchecks
  have hchange : (m'.step ⟨100, fun _ => 0⟩).heap.frames.lookup? Heap.globals "d" ≠
      m'.heap.frames.lookup? Heap.globals "d" := by
    rw [hchecks'.2]
    exact Option.isSome_iff_ne_none.1 hchecks'.1
  exact ⟨⟨m, log, e, ⟨hmoment, he, hg, hname, hframe⟩, (hnames m log hmoment).1 e he hg⟩,
    m', log', "d", ⟨hmoment', hchange, rfl⟩,
    (hnames m' log' hmoment').2 ⟨100, fun _ => 0⟩ "d" hchange⟩

end LoxLang
