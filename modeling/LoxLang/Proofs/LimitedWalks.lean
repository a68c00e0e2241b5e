import LoxLang.Scope.Walk

/-!
# The limit of the resolver's walk

A walk with enough room for the height of a tree does what resolution without a limit does; with
less it is stopped, and what it had found until then is how the violations of the tree begin
(`Stmt.walk_reaches`, `Expr.walk_reaches`). So a walk that is not stopped may be taken for
`resolveProgram` or `resolveExpression` (`walkProgram_eq`, `walkExpression_eq`).
-/

namespace LoxLang

/-! ## Heights -/

mutual
/-- How many nodes deep an expression is. -/
def Expr.height : Expr → Nat
  | .missing => 0
  | .assign _ value => value.height + 1
  | .binary left _ right | .logical left _ right => max left.height right.height + 1
  | .call callee _ arguments => max callee.height (exprsHeight arguments) + 1
  | .get object _ => object.height + 1
  | .grouping inner => inner.height + 1
  | .set object _ value => max value.height object.height + 1
  | .unary _ right => right.height + 1
  | .literal _ | .super _ _ | .this _ | .variable _ => 1
def exprsHeight : List Expr → Nat
  | [] => 0
  | e :: rest => max e.height (exprsHeight rest)
end

def Expr.heightOption : Option Expr → Nat
  | none => 0
  | some e => e.height

mutual
/-- How many nodes deep a statement is. A function's body is as deep as the function. -/
def Stmt.height : Stmt → Nat
  | .missing => 0
  | .block body => stmtsHeight body + 1
  | .classDecl _ superclass methods => max superclass.toList.length (methodsHeight methods) + 1
  | .expression value => value.height + 1
  | .function f => f.height + 1
  | .ifElse condition thenBranch elseBranch =>
    max (max condition.height thenBranch.height) elseBranch.height + 1
  | .print value => value.height + 1
  | .returning _ value => Expr.heightOption value + 1
  | .varDecl _ initializer => Expr.heightOption initializer + 1
  | .whileLoop condition body => max condition.height body.height + 1
def Function.height : Function → Nat
  | .mk _ _ body => stmtsHeight body
def methodsHeight : List Function → Nat
  | [] => 0
  | f :: rest => max f.height (methodsHeight rest)
def stmtsHeight : List Stmt → Nat
  | [] => 0
  | s :: rest => max s.height (stmtsHeight rest)
end

theorem stmtsHeight_append (ts us : List Stmt) :
    stmtsHeight (ts ++ us) = max (stmtsHeight ts) (stmtsHeight us) := by
  induction ts with
  | nil => exact (Nat.zero_max _).symm
  | cons t ts ih => rw [List.cons_append, stmtsHeight, stmtsHeight, ih, Nat.max_assoc]

/-! ## What a walk reaches -/

namespace Walk

variable {α β γ : Type}

/-- A walk reaches the end of another one if the piece fits its room, and stops on the way if it
does not. -/
structure Reaches (w : Walk α) (fits : Prop) (whole : Walk α) : Prop where
  eq : fits → w = whole
  stopped : ¬fits → w.stopped = true
  findings : w.findings <+: whole.findings

namespace Reaches

variable {w v : Walk α} {p q : Prop} {tree : α} {Γ Δ : List Scope} {fs gs : List Finding}

theorem eq_of_not_stopped (h : w.Reaches p v) (hw : w.stopped = false) : w = v :=
  h.eq (Classical.byContradiction fun hp => Bool.noConfusion (hw.symm.trans (h.stopped hp)))

/-- Where the other walk is not stopped, the one is stopped just in case there is no room. -/
theorem stopped_iff (h : w.Reaches p v) (hv : v.stopped = false) : w.stopped = false ↔ p :=
  ⟨fun hw => Classical.byContradiction fun hp => Bool.noConfusion (hw.symm.trans (h.stopped hp)),
    fun hp => by rw [h.eq hp, hv]⟩

theorem congr (h : w.Reaches p v) (hpq : p ↔ q) : w.Reaches q v :=
  ⟨fun hq => h.eq (hpq.2 hq), fun hq => h.stopped fun hp => hq (hpq.1 hp), h.findings⟩

theorem self (w : Walk α) (hp : p) : w.Reaches p w :=
  ⟨fun _ => rfl, fun hno => absurd hp hno, List.prefix_rfl⟩

theorem enter {visit : Nat → Walk α} (h : ∀ n, (visit n).Reaches (height ≤ n) v) :
    (Walk.enter room tree Γ visit).Reaches (height + 1 ≤ room) v := by
  cases room with
  | zero => exact ⟨nofun, fun _ => rfl, List.nil_prefix⟩
  | succ n => exact (h n).congr Nat.add_le_add_iff_right.symm

theorem map (h : w.Reaches p v) (f : α → β) : (w.map f).Reaches p (v.map f) :=
  ⟨fun hp => congrArg _ (h.eq hp), h.stopped, h.findings⟩

theorem leaving (h : w.Reaches p v) (f : List Scope → List Scope) :
    (w.leaving f).Reaches p (v.leaving f) :=
  ⟨fun hp => congrArg _ (h.eq hp), h.stopped, h.findings⟩

theorem behind (h : w.Reaches p v) (fs : List Finding) : (w.behind fs).Reaches p (v.behind fs) :=
  ⟨fun hp => congrArg _ (h.eq hp), h.stopped, (List.prefix_append_right_inj fs).2 h.findings⟩

theorem andThen {next next' : β} {visit : List Scope → Walk β} (h : w.Reaches p (done tree Γ fs))
    (h' : (visit Γ).Reaches q (done next' Δ gs)) (whole : α → β → γ) :
    (w.andThen next whole visit).Reaches (p ∧ q) (done (whole tree next') Δ (fs ++ gs)) := by
  cases hw : w.stopped with
  | true =>
    have hp : ¬p := fun hp => by rw [h.eq hp] at hw; cases hw
    simp only [Walk.andThen, hw, if_true]
    exact ⟨fun hpq => absurd hpq.1 hp, fun _ => rfl, h.findings.trans (List.prefix_append fs gs)⟩
  | false =>
    have hp : p := (h.stopped_iff rfl).1 hw
    obtain rfl := h.eq hp
    refine ⟨fun hpq => ?_, fun hpq => h'.stopped fun hq => hpq ⟨hp, hq⟩,
      (List.prefix_append_right_inj fs).2 h'.findings⟩
    show Walk.mk _ _ _ _ = _
    rw [show visit (done tree Γ fs).scopes = _ from h'.eq hpq.2]
    rfl

/-- The next piece has its part in the height. -/
theorem andThen_max {m n : Nat} {next next' : β} {visit : List Scope → Walk β}
    (h : w.Reaches (m ≤ room) (done tree Γ fs))
    (h' : (visit Γ).Reaches (n ≤ room) (done next' Δ gs)) (whole : α → β → γ) :
    (w.andThen next whole visit).Reaches (max m n ≤ room) (done (whole tree next') Δ (fs ++ gs)) :=
  (h.andThen h' whole).congr Nat.max_le.symm

/-- What comes next is done at once. -/
theorem andThen_done (h : w.Reaches p (done tree Γ fs)) (next : β) (f : List Scope → β)
    (whole : α → β → γ) :
    (w.andThen next whole fun Γ => done (f Γ) Γ []).Reaches p
      (done (whole tree (f Γ)) Γ fs) := by
  have hnext : (w.andThen next whole fun Γ => done (f Γ) Γ []).Reaches (p ∧ True)
      (done (whole tree (f Γ)) Γ (fs ++ [])) := h.andThen (.self _ trivial) whole
  rw [List.append_nil] at hnext
  exact hnext.congr (and_iff_left trivial)

end Reaches

end Walk

open Walk

theorem Reference.walk_reaches (Γ : List Scope) (room : Nat) (r : Reference) :
    (r.walk Γ room).Reaches (1 ≤ room) (done (r.resolve Γ) Γ (r.readFindings Γ)) :=
  .enter fun _ => .self _ (Nat.zero_le _)

mutual
theorem Expr.walk_reaches (A : Enclosing) (Γ : List Scope) : ∀ (e : Expr) (room : Nat),
    (e.walk A Γ room).Reaches (e.height ≤ room) (done (e.resolve A Γ).1 Γ (e.resolve A Γ).2)
  | .missing, _ => .self _ (Nat.zero_le _)
  | .assign target value, _ => by
    simp only [Expr.walk, Expr.resolve, Expr.height]
    exact .enter fun n => (value.walk_reaches A Γ n).andThen_done target _ _
  | .binary left op right, _ | .logical left op right, _ => by
    simp only [Expr.walk, Expr.resolve, Expr.height]
    exact .enter fun n => (left.walk_reaches A Γ n).andThen_max (right.walk_reaches A Γ n) _
  | .set object name value, _ => by
    simp only [Expr.walk, Expr.resolve, Expr.height]
    exact .enter fun n => (value.walk_reaches A Γ n).andThen_max (object.walk_reaches A Γ n) _
  | .call callee paren arguments, _ => by
    simp only [Expr.walk, Expr.resolve, Expr.height]
    exact .enter fun n =>
      (callee.walk_reaches A Γ n).andThen_max (walkExprs_reaches A Γ arguments n) _
  | .get e _, _ | .grouping e, _ | .unary _ e, _ => by
    simp only [Expr.walk, Expr.resolve, Expr.height]
    exact .enter fun n => (e.walk_reaches A Γ n).map _
  | .literal _, _ | .super _ _, _ => by
    simp only [Expr.walk, Expr.resolve, Expr.height]
    exact .enter fun n => .self _ (Nat.zero_le n)
  | .this keyword, _ => by
    simp only [Expr.walk, Expr.resolve, Expr.height]
    refine .enter fun n => ?_
    split <;> exact .self _ (Nat.zero_le n)
  | .variable target, room => (target.walk_reaches Γ room).map _
theorem walkExprs_reaches (A : Enclosing) (Γ : List Scope) : ∀ (es : List Expr) (room : Nat),
    (walkExprs A Γ room es).Reaches (exprsHeight es ≤ room)
      (done (resolveExprs A Γ es).1 Γ (resolveExprs A Γ es).2)
  | [], _ => .self _ (Nat.zero_le _)
  | e :: rest, room => by
    simp only [walkExprs, resolveExprs, exprsHeight]
    exact (e.walk_reaches A Γ room).andThen_max (walkExprs_reaches A Γ rest room) _
end

theorem Expr.walkOption_reaches (A : Enclosing) (Γ : List Scope) (o : Option Expr) (room : Nat) :
    (walkOption A Γ room o).Reaches (heightOption o ≤ room)
      (done (resolveOption A Γ o).1 Γ (resolveOption A Γ o).2) := by
  cases o with
  | none => exact .self _ (Nat.zero_le _)
  | some e => exact (e.walk_reaches A Γ room).map _

theorem Reference.walkSuperclass_reaches (Γ : List Scope) (className : Token)
    (o : Option Reference) (room : Nat) :
    (walkSuperclass Γ className room o).Reaches (o.toList.length ≤ room)
      (done ((o.map (·.resolveSuperclass Γ className)).map (·.1)) Γ
        (((o.map (·.resolveSuperclass Γ className)).map (·.2)).getD [])) := by
  cases o with
  | none => exact .self _ (Nat.zero_le _)
  | some r => exact ((r.walk_reaches Γ room).map _).behind _

/-- The walk that resolution would be. -/
def Resolved.walk (r : Resolved α) : Walk α := done r.tree r.scopes r.findings

mutual
theorem Stmt.walk_reaches (A : Enclosing) (Γ : List Scope) : ∀ (t : Stmt) (room : Nat),
    (t.walk A Γ room).Reaches (t.height ≤ room) (t.resolve A Γ).walk
  | .missing, _ => .self _ (Nat.zero_le _)
  | .block body, _ => by
    simp only [Stmt.walk, Stmt.resolve, Stmt.height]
    exact .enter fun n => ((walkStmts_reaches A ([] :: Γ) body n).leaving _).map _
  | .classDecl name superclass methods, _ => by
    simp only [Stmt.walk, Stmt.resolve, Stmt.height, List.append_assoc]
    exact .enter fun n => (((Reference.walkSuperclass_reaches _ name superclass n).andThen_max
      (walkMethods_reaches _ _ methods n) _).leaving _).behind _
  | .expression e, _ | .print e, _ => by
    simp only [Stmt.walk, Stmt.resolve, Stmt.height]
    exact .enter fun n => (e.walk_reaches A Γ n).map _
  | .function f, _ => by
    simp only [Stmt.walk, Stmt.resolve, Stmt.height]
    exact .enter fun n => ((f.walk_reaches _ _ n).map _).behind _
  | .ifElse c t e, _ => by
    simp only [Stmt.walk, Stmt.resolve, Stmt.height]
    exact .enter fun n => ((c.walk_reaches A Γ n).andThen_max (t.walk_reaches A Γ n) _).andThen_max
      (e.walk_reaches A _ n) _
  | .returning keyword o, _ => by
    simp only [Stmt.walk, Stmt.resolve, Stmt.height]
    exact .enter fun n => ((Expr.walkOption_reaches A Γ o n).map _).behind _
  | .varDecl name o, _ => by
    simp only [Stmt.walk, Stmt.resolve, Stmt.height]
    exact .enter fun n => (((Expr.walkOption_reaches A _ o n).leaving _).map _).behind _
  | .whileLoop c t, _ => by
    simp only [Stmt.walk, Stmt.resolve, Stmt.height]
    exact .enter fun n => (c.walk_reaches A Γ n).andThen_max (t.walk_reaches A Γ n) _
theorem Function.walk_reaches (A : Enclosing) (Γ : List Scope) : ∀ (f : Function) (room : Nat),
    (f.walk A Γ room).Reaches (f.height ≤ room) (done (f.resolve A Γ).1 Γ (f.resolve A Γ).2)
  | .mk name parameters body, room => by
    simp only [Function.walk, Function.resolve, Function.height]
    exact (((walkStmts_reaches A _ body room).leaving _).map _).behind _
theorem walkMethods_reaches (A : Enclosing) (Γ : List Scope) : ∀ (fs : List Function) (room : Nat),
    (walkMethods A Γ room fs).Reaches (methodsHeight fs ≤ room)
      (done (resolveMethods A Γ fs).1 Γ (resolveMethods A Γ fs).2)
  | [], _ => .self _ (Nat.zero_le _)
  | f :: rest, room => by
    simp only [walkMethods, resolveMethods, methodsHeight]
    exact (f.walk_reaches _ Γ room).andThen_max (walkMethods_reaches A Γ rest room) _
theorem walkStmts_reaches (A : Enclosing) (Γ : List Scope) : ∀ (ts : List Stmt) (room : Nat),
    (walkStmts A Γ room ts).Reaches (stmtsHeight ts ≤ room) (resolveStmts A Γ ts).walk
  | [], _ => .self _ (Nat.zero_le _)
  | t :: rest, room => by
    simp only [walkStmts, resolveStmts, stmtsHeight]
    exact (t.walk_reaches A Γ room).andThen_max (walkStmts_reaches A _ rest room) _
end

/-! ## Programs and expressions by themselves -/

theorem Finding.kind_report (f : Finding) : f.report.kind = .static := rfl

/-- Whatever a walk reports is static. -/
theorem Walk.static_of_reports (w : Walk α) : ∀ r ∈ w.reports, r.kind = .static := by
  intro r hr
  obtain ⟨f, -, rfl⟩ := List.mem_map.1 hr
  exact f.kind_report

theorem stopped_walkProgram_iff (room : Nat) (program : List Stmt) :
    (walkProgram room program).stopped = false ↔ stmtsHeight program ≤ room :=
  (walkStmts_reaches _ _ program room).stopped_iff rfl

theorem stopped_walkExpression_iff (room : Nat) (e : Expr) :
    (walkExpression room e).stopped = false ↔ e.height ≤ room :=
  (e.walk_reaches _ _ room).stopped_iff rfl

/-- A walk that is not stopped resolves the program. -/
theorem walkProgram_eq (h : (walkProgram room program).stopped = false) :
    (walkProgram room program).tree = (resolveProgram program).1 ∧
      (walkProgram room program).reports = (resolveProgram program).2 := by
  have heq := (walkStmts_reaches _ _ program room).eq_of_not_stopped h
  exact ⟨congrArg Walk.tree heq, congrArg Walk.reports heq⟩

theorem walkExpression_eq (h : (walkExpression room e).stopped = false) :
    (walkExpression room e).tree = (resolveExpression e).1 ∧
      (walkExpression room e).reports = (resolveExpression e).2 := by
  have heq := (e.walk_reaches _ _ room).eq_of_not_stopped h
  exact ⟨congrArg Walk.tree heq, congrArg Walk.reports heq⟩

/-- A stopped walk has made the first ones of the reports on the whole program. -/
theorem reports_walkProgram (room : Nat) (program : List Stmt) :
    (walkProgram room program).reports <+: (resolveProgram program).2 :=
  (walkStmts_reaches _ _ program room).findings.map _

theorem reports_walkExpression (room : Nat) (e : Expr) :
    (walkExpression room e).reports <+: (resolveExpression e).2 :=
  (e.walk_reaches _ _ room).findings.map _

end LoxLang
