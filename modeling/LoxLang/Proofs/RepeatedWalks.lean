import LoxLang.Proofs.AssignedNames
import LoxLang.Scope.Walk

/-!
# Walking again

Whether the walk of the resolver comes to the end of a tree or is stopped on the way, it changes
nothing but the numbers of references (`Stmt.bare_walk`), and a walk over what it leaves does what
it did: the tree stays as it is, the same violations are found, and the walk is stopped where it was
stopped (`Stmt.walk_walk`).
-/

namespace LoxLang

namespace Walk

variable {α β γ : Type}

theorem tree_andThen (w : Walk α) (next : β) (whole : α → β → γ) (visit : List Scope → Walk β) :
    (w.andThen next whole visit).tree =
      whole w.tree (if w.stopped then next else (visit w.scopes).tree) := by
  unfold andThen
  split <;> rfl

/-- What a walk over two pieces leaves of them, walked over again. -/
theorem andThen_repeats {f : α → Walk α} {g : List Scope → β → Walk β} (hf : f (f a).tree = f a)
    (hg : ∀ Γ, g Γ (g Γ b).tree = g Γ b) (whole : α → β → γ) :
    (f (f a).tree).andThen (if (f a).stopped then b else (g (f a).scopes b).tree) whole
        (fun Γ => g Γ (if (f a).stopped then b else (g (f a).scopes b).tree)) =
      (f a).andThen b whole (g · b) := by
  rw [hf]
  cases hstopped : (f a).stopped with
  | true => rfl
  | false => simp only [andThen, hstopped, Bool.false_eq_true, if_false, hg]

/-- Over a whole of two pieces a walk repeats itself if it does so over each of them. -/
theorem andThen_again {f : α → Walk α} {g : List Scope → β → Walk β} {W : α → β → γ}
    {F : γ → Walk γ} (hF : ∀ a b, F (W a b) = (f a).andThen b W (g · b))
    (hf : f (f a).tree = f a) (hg : ∀ Γ, g Γ (g Γ b).tree = g Γ b) :
    F (F (W a b)).tree = F (W a b) := by
  rw [hF, tree_andThen, hF, andThen_repeats hf hg]

theorem map_again {f : α → Walk α} {W : α → β} {F : β → Walk β}
    (hF : ∀ a, F (W a) = (f a).map W) (hf : f (f a).tree = f a) : F (F (W a)).tree = F (W a) := by
  rw [hF, show ((f a).map W).tree = W (f a).tree from rfl, hF, hf]

end Walk

open Walk

/-! ## References -/

theorem Reference.resolve_resolve (Γ : List Scope) (r : Reference) :
    (r.resolve Γ).resolve Γ = r.resolve Γ := by
  obtain ⟨name, hops⟩ := r
  simp only [resolve]
  cases hops <;> simp

theorem Reference.walk_walk (Γ : List Scope) (room : Nat) (r : Reference) :
    (r.walk Γ room).tree.walk Γ room = r.walk Γ room := by
  cases room with
  | zero => rfl
  | succ n =>
    show done ((r.resolve Γ).resolve Γ) Γ _ = _
    rw [resolve_resolve]
    rfl

theorem Reference.bare_walk (Γ : List Scope) (room : Nat) (r : Reference) :
    (r.walk Γ room).tree.bare = r.bare := by
  cases room <;> rfl

/-! ## Expressions -/

mutual
theorem Expr.walk_walk (A : Enclosing) (Γ : List Scope) :
    ∀ (room : Nat) (e : Expr), (e.walk A Γ room).tree.walk A Γ room = e.walk A Γ room
  | 0, e => by cases e <;> rfl
  | n + 1, .missing | n + 1, .literal _ => rfl
  | n + 1, .super keyword method => by
    show done (Expr.super ((keyword.resolve Γ).resolve Γ) method) Γ _ = _
    rw [Reference.resolve_resolve]
    rfl
  | n + 1, .this keyword => by
    by_cases hc : A.classKind.isNone <;>
      simp only [Expr.walk, enter, done, hc, if_true, if_false, Bool.false_eq_true,
        Reference.resolve_resolve]
  | n + 1, .variable target => congrArg (Walk.map Expr.variable) (target.walk_walk Γ (n + 1))
  | n + 1, .assign target value =>
    andThen_again (F := Expr.walk A Γ (n + 1)) (W := fun v t => .assign t v)
      (g := fun Γ t => done (Reference.resolve Γ t) Γ []) (fun _ _ => rfl) (value.walk_walk A Γ n)
      fun Γ => congrArg (done · Γ []) (target.resolve_resolve Γ)
  | n + 1, .binary left op right =>
    andThen_again (F := Expr.walk A Γ (n + 1)) (W := fun l r => .binary l op r)
      (g := fun Γ r => r.walk A Γ n) (fun _ _ => rfl) (left.walk_walk A Γ n)
      fun _ => right.walk_walk A _ n
  | n + 1, .logical left op right =>
    andThen_again (F := Expr.walk A Γ (n + 1)) (W := fun l r => .logical l op r)
      (g := fun Γ r => r.walk A Γ n) (fun _ _ => rfl) (left.walk_walk A Γ n)
      fun _ => right.walk_walk A _ n
  | n + 1, .set object name value =>
    andThen_again (F := Expr.walk A Γ (n + 1)) (W := fun v o => .set o name v)
      (g := fun Γ o => o.walk A Γ n) (fun _ _ => rfl) (value.walk_walk A Γ n)
      fun _ => object.walk_walk A _ n
  | n + 1, .call callee paren arguments =>
    andThen_again (F := Expr.walk A Γ (n + 1)) (W := fun f es => .call f paren es)
      (g := fun Γ es => walkExprs A Γ n es) (fun _ _ => rfl) (callee.walk_walk A Γ n)
      fun _ => walkExprs_walk A _ n arguments
  | n + 1, .get object name =>
    map_again (F := Expr.walk A Γ (n + 1)) (W := fun e => .get e name) (fun _ => rfl)
      (object.walk_walk A Γ n)
  | n + 1, .grouping inner =>
    map_again (F := Expr.walk A Γ (n + 1)) (W := .grouping) (fun _ => rfl) (inner.walk_walk A Γ n)
  | n + 1, .unary op right =>
    map_again (F := Expr.walk A Γ (n + 1)) (W := fun e => .unary op e) (fun _ => rfl)
      (right.walk_walk A Γ n)
theorem walkExprs_walk (A : Enclosing) (Γ : List Scope) (room : Nat) :
    ∀ es : List Expr, walkExprs A Γ room (walkExprs A Γ room es).tree = walkExprs A Γ room es
  | [] => rfl
  | e :: es =>
    andThen_again (F := walkExprs A Γ room) (W := List.cons)
      (g := fun Γ es => walkExprs A Γ room es)
      (fun _ _ => rfl) (e.walk_walk A Γ room) fun _ => walkExprs_walk A _ room es
end

theorem Expr.walkOption_walk (A : Enclosing) (Γ : List Scope) (room : Nat) (o : Option Expr) :
    walkOption A Γ room (walkOption A Γ room o).tree = walkOption A Γ room o := by
  cases o with
  | none => rfl
  | some e => exact congrArg (Walk.map some) (e.walk_walk A Γ room)

theorem Expr.isSome_walkOption (A : Enclosing) (Γ : List Scope) (room : Nat) (o : Option Expr) :
    (walkOption A Γ room o).tree.isSome = o.isSome := by
  cases o <;> rfl

mutual
theorem Expr.bare_walk (A : Enclosing) (Γ : List Scope) :
    ∀ (room : Nat) (e : Expr), (e.walk A Γ room).tree.bare = e.bare
  | 0, e => by cases e <;> rfl
  | n + 1, .missing | n + 1, .literal _ | n + 1, .super _ _ | n + 1, .variable _ => rfl
  | n + 1, .this keyword => by
    by_cases hc : A.classKind.isNone <;>
      simp only [Expr.walk, enter, done, hc, if_true, if_false, Bool.false_eq_true, Expr.bare,
        Reference.bare_resolve]
  | n + 1, .get e _ | n + 1, .grouping e | n + 1, .unary _ e => by
    simp only [Expr.walk, enter, Walk.map, Expr.bare, e.bare_walk A Γ n]
  | n + 1, .assign _ e => by
    simp only [Expr.walk, enter, tree_andThen, Expr.bare, e.bare_walk A Γ n]
    split <;> rfl
  | n + 1, .binary l _ r | n + 1, .logical l _ r | n + 1, .set r _ l => by
    simp only [Expr.walk, enter, tree_andThen, Expr.bare, l.bare_walk A Γ n]
    split
    · rfl
    · rw [r.bare_walk]
  | n + 1, .call f _ es => by
    simp only [Expr.walk, enter, tree_andThen, Expr.bare, f.bare_walk A Γ n]
    split
    · rfl
    · rw [bareExprs_walk]
theorem bareExprs_walk (A : Enclosing) (Γ : List Scope) (room : Nat) :
    ∀ es : List Expr, bareExprs (walkExprs A Γ room es).tree = bareExprs es
  | [] => rfl
  | e :: es => by
    simp only [walkExprs, tree_andThen, bareExprs, e.bare_walk A Γ room]
    split
    · rfl
    · rw [bareExprs_walk]
end

theorem Expr.bare_walkOption (A : Enclosing) (Γ : List Scope) (room : Nat) (o : Option Expr) :
    (walkOption A Γ room o).tree.map Expr.bare = o.map Expr.bare := by
  cases o with
  | none => rfl
  | some e => exact congrArg some (e.bare_walk A Γ room)

/-! ## Statements -/

theorem Reference.walkSuperclass_walk (Γ : List Scope) (className : Token) (room : Nat)
    (o : Option Reference) :
    walkSuperclass Γ className room (walkSuperclass Γ className room o).tree =
      walkSuperclass Γ className room o := by
  cases o with
  | none => rfl
  | some r =>
    have hname : (r.walk Γ room).tree.name = r.name := by cases room <;> rfl
    show ((((r.walk Γ room).tree.walk Γ room).map some).behind _) = _
    rw [r.walk_walk Γ room, hname]
    rfl

theorem Reference.isSome_walkSuperclass (Γ : List Scope) (className : Token) (room : Nat)
    (o : Option Reference) : (walkSuperclass Γ className room o).tree.isSome = o.isSome := by
  cases o <;> rfl

theorem Reference.bare_walkSuperclass (Γ : List Scope) (className : Token) (room : Nat)
    (o : Option Reference) :
    (walkSuperclass Γ className room o).tree.map Reference.bare = o.map Reference.bare := by
  cases o with
  | none => rfl
  | some r => exact congrArg some (r.bare_walk Γ room)

@[simp] theorem Function.name_walk (A : Enclosing) (Γ : List Scope) (room : Nat) (f : Function) :
    (f.walk A Γ room).tree.name = f.name := by
  cases f
  rfl

mutual
theorem Stmt.walk_walk (A : Enclosing) (Γ : List Scope) :
    ∀ (room : Nat) (t : Stmt), (t.walk A Γ room).tree.walk A Γ room = t.walk A Γ room
  | 0, t => by cases t <;> rfl
  | n + 1, .missing => rfl
  | n + 1, .block body => by
    simp only [Stmt.walk, enter, Walk.map, Walk.leaving, walkStmts_walk A _ n body]
  | n + 1, .classDecl name superclass methods => by
    have hagain := andThen_repeats (a := superclass) (b := methods)
      (f := Reference.walkSuperclass (Scope.introduce name Γ) name n)
      (g := fun outer fs =>
        walkMethods ⟨A.function, some (if superclass.isSome then .derived else .base)⟩
          (Scope.aroundMethods superclass.isSome outer) n fs)
      (Reference.walkSuperclass_walk ..) (fun _ => walkMethods_walk _ _ n methods)
      (Stmt.classDecl name)
    simp only [Stmt.walk, enter, Walk.leaving, Walk.behind, tree_andThen,
      Reference.isSome_walkSuperclass, hagain]
  | n + 1, .expression e | n + 1, .print e => by
    simp only [Stmt.walk, enter, Walk.map, e.walk_walk A Γ n]
  | n + 1, .function f => by
    simp only [Stmt.walk, enter, Walk.map, Walk.behind, Function.name_walk, f.walk_walk _ _ n]
  | n + 1, .ifElse c t e => by
    -- The condition and the first branch together come before the second one.
    let F (p : Expr × Stmt) : Walk (Expr × Stmt) :=
      (p.1.walk A Γ n).andThen p.2 Prod.mk fun Γ => p.2.walk A Γ n
    have hboth : F (F (c, t)).tree = F (c, t) :=
      andThen_again (W := Prod.mk) (g := fun Γ t => t.walk A Γ n) (fun _ _ => rfl)
        (c.walk_walk A Γ n) fun _ => t.walk_walk A _ n
    exact andThen_again (F := Stmt.walk A Γ (n + 1)) (W := fun p e => .ifElse p.1 p.2 e) (f := F)
      (a := (c, t)) (g := fun Γ e => e.walk A Γ n) (fun _ _ => rfl) hboth fun _ => e.walk_walk A _ n
  | n + 1, .returning _ o => by
    simp only [Stmt.walk, enter, Walk.map, Walk.behind, Expr.walkOption_walk,
      Expr.isSome_walkOption]
  | n + 1, .varDecl _ o => by
    simp only [Stmt.walk, enter, Walk.map, Walk.behind, Walk.leaving, Expr.walkOption_walk]
  | n + 1, .whileLoop c t =>
    andThen_again (F := Stmt.walk A Γ (n + 1)) (W := .whileLoop) (g := fun Γ t => t.walk A Γ n)
      (fun _ _ => rfl) (c.walk_walk A Γ n) fun _ => t.walk_walk A _ n
theorem Function.walk_walk (A : Enclosing) (Γ : List Scope) (room : Nat) :
    ∀ f : Function, (f.walk A Γ room).tree.walk A Γ room = f.walk A Γ room
  | .mk name parameters body => by
    simp only [Function.walk, Walk.map, Walk.behind, Walk.leaving, walkStmts_walk A _ room body]
theorem walkMethods_walk (A : Enclosing) (Γ : List Scope) (room : Nat) :
    ∀ fs : List Function,
      walkMethods A Γ room (walkMethods A Γ room fs).tree = walkMethods A Γ room fs
  | [] => rfl
  | f :: fs =>
    andThen_again (F := walkMethods A Γ room) (W := List.cons)
      (f := fun f => f.walk ⟨some (.ofMethod f.name.lexeme), A.classKind⟩ Γ room)
      (g := fun Γ fs => walkMethods A Γ room fs) (fun _ _ => rfl)
      (by rw [Function.name_walk, f.walk_walk _ Γ room]) fun _ => walkMethods_walk A _ room fs
theorem walkStmts_walk (A : Enclosing) (Γ : List Scope) (room : Nat) :
    ∀ ts : List Stmt, walkStmts A Γ room (walkStmts A Γ room ts).tree = walkStmts A Γ room ts
  | [] => rfl
  | t :: ts =>
    andThen_again (F := walkStmts A Γ room) (W := List.cons)
      (g := fun Γ ts => walkStmts A Γ room ts)
      (fun _ _ => rfl) (t.walk_walk A Γ room) fun _ => walkStmts_walk A _ room ts
end

mutual
theorem Stmt.bare_walk (A : Enclosing) (Γ : List Scope) :
    ∀ (room : Nat) (t : Stmt), (t.walk A Γ room).tree.bare = t.bare
  | 0, t => by cases t <;> rfl
  | n + 1, .missing => rfl
  | n + 1, .block body => by
    simp only [Stmt.walk, enter, Walk.map, Walk.leaving, Stmt.bare, bareStmts_walk A _ n body]
  | n + 1, .classDecl _ _ methods => by
    simp only [Stmt.walk, enter, Walk.behind, Walk.leaving, tree_andThen, Stmt.bare,
      Reference.bare_walkSuperclass]
    split
    · rfl
    · rw [bareMethods_walk]
  | n + 1, .expression e | n + 1, .print e => by
    simp only [Stmt.walk, enter, Walk.map, Stmt.bare, e.bare_walk A Γ n]
  | n + 1, .function f => by
    simp only [Stmt.walk, enter, Walk.map, Walk.behind, Stmt.bare, f.bare_walk _ _ n]
  | n + 1, .ifElse c t e => by
    simp only [Stmt.walk, enter, tree_andThen, Stmt.bare, c.bare_walk A Γ n]
    split <;> split <;> simp only [t.bare_walk, e.bare_walk]
  | n + 1, .returning _ o | n + 1, .varDecl _ o => by
    simp only [Stmt.walk, enter, Walk.map, Walk.behind, Walk.leaving, Stmt.bare,
      Expr.bare_walkOption]
  | n + 1, .whileLoop c t => by
    simp only [Stmt.walk, enter, tree_andThen, Stmt.bare, c.bare_walk A Γ n]
    split
    · rfl
    · rw [t.bare_walk]
theorem Function.bare_walk (A : Enclosing) (Γ : List Scope) (room : Nat) :
    ∀ f : Function, (f.walk A Γ room).tree.bare = f.bare
  | .mk _ _ body => by
    simp only [Function.walk, Walk.map, Walk.behind, Walk.leaving, Function.bare,
      bareStmts_walk A _ room body]
theorem bareMethods_walk (A : Enclosing) (Γ : List Scope) (room : Nat) :
    ∀ fs : List Function, bareMethods (walkMethods A Γ room fs).tree = bareMethods fs
  | [] => rfl
  | f :: fs => by
    simp only [walkMethods, tree_andThen, bareMethods, f.bare_walk _ Γ room]
    split
    · rfl
    · rw [bareMethods_walk]
theorem bareStmts_walk (A : Enclosing) (Γ : List Scope) (room : Nat) :
    ∀ ts : List Stmt, bareStmts (walkStmts A Γ room ts).tree = bareStmts ts
  | [] => rfl
  | t :: ts => by
    simp only [walkStmts, tree_andThen, bareStmts, t.bare_walk A Γ room]
    split
    · rfl
    · rw [bareStmts_walk]
end

end LoxLang
