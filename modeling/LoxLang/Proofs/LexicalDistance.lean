import Mathlib.Data.List.Forall2
import LoxLang.Proofs.Occurrences
import LoxLang.Proofs.Piecewise.Accepting
import LoxLang.Proofs.Scopes

/-!
# Lexical distance

A scope declares a name for a reference if it is around the reference and holds a declaration of the
name before it (`DeclaredAt`). The resolver gives a reference the number of scopes between it and
the nearest scope that declares its name, and no number exactly if no local scope does
(`resolver_computes_lexical_distance`).
-/

namespace LoxLang

namespace Occurrence

/-- The scope so many scopes out declares the name of the reference. -/
def DeclaredAt (p : Occurrence) (d : Nat) : Prop :=
  ∃ before, p.around[d]? = some before ∧ .declares p.reference.name.lexeme ∈ before

/-- The nearest scope that declares the name of the reference is so many scopes out. -/
def Nearest (p : Occurrence) (d : Nat) : Prop := p.DeclaredAt d ∧ ∀ e < d, ¬p.DeclaredAt e

/-- What a reference comes to have for its number of hops. -/
structure Gets (p : Occurrence) (hops : Option Nat) : Prop where
  kept (d : Nat) : p.reference.hops = some d → hops = some d
  outside : p.reference.hops = none → p.kind = .this → p.inClass = false → hops = none
  distance (d : Nat) : p.reference.hops = none → (p.kind = .this → p.inClass = true) →
    (hops = some d ↔ p.Nearest d)
  unbound : p.reference.hops = none → (p.kind = .this → p.inClass = true) →
    (hops = none ↔ ∀ d, ¬p.DeclaredAt d)

/-- The resolved form of a reference, as it is listed. -/
def Resolves (p : Occurrence) (resolved : ReferenceKind × Reference) : Prop :=
  resolved.1 = p.kind ∧ resolved.2.name = p.reference.name ∧ p.Gets resolved.2.hops

end Occurrence

/-! ## Scopes and their text -/

/-- The scopes of the resolver have the names that the text has declared. -/
def Agree (scopes : List Scope) (around : List (List Item)) : Prop :=
  List.Forall₂ (fun scope before => ∀ x, scope.contains x = true ↔ .declares x ∈ before)
    scopes around

namespace Agree

theorem passing (h : Agree scopes around) (hi : ∀ x, .declares x ∉ items) :
    Agree scopes (passing items around) := by
  cases h with
  | nil => exact .nil
  | cons hx h => exact .cons (fun x => by simp [hx, hi x]) h

theorem declare (h : Agree scopes around) (x : String) :
    Agree (Scope.declare x scopes) (LoxLang.passing [.declares x] around) := by
  cases h with
  | nil => exact .nil
  | cons hx h => exact .cons (fun y => by simp [Bindings.contains_insert, hx, or_comm]) h

/-- A name that is declared already may be made ready. -/
theorem define (h : Agree scopes (LoxLang.passing (.declares x :: items) around)) :
    Agree (Scope.define x scopes) (LoxLang.passing (.declares x :: items) around) := by
  cases around with
  | nil => cases h; exact .nil
  | cons before outer =>
    obtain _ | ⟨hx, h⟩ := h
    refine .cons (fun y => ?_) h
    rw [Bindings.contains_insert, Bool.or_eq_true, hx, decide_eq_true_eq]
    exact or_iff_right_of_imp fun hy => by simp [hy]

theorem introduce (h : Agree scopes around) (name : Token) :
    Agree (Scope.introduce name scopes) (LoxLang.passing [.declares name.lexeme] around) :=
  (h.declare name.lexeme).define

theorem push (h : Agree scopes around) : Agree ([] :: scopes) ([] :: around) :=
  .cons (fun x => by simp [Bindings.contains, Bindings.get?]) h

theorem holds_iff (h : Agree scopes around) (x : String) (d : Nat) :
    Scope.HoldsAt scopes x d ↔ ∃ before, around[d]? = some before ∧ .declares x ∈ before := by
  unfold Scope.HoldsAt
  induction h generalizing d with
  | nil => simp
  | cons hx _ ih =>
    cases d with
    | zero => simp [hx]
    | succ d => simpa using ih d

end Agree

/-! ## References -/

/-- What the resolver makes of a reference. -/
def Enclosing.resolved (around : Enclosing) (scopes : List Scope) :
    ReferenceKind × Reference → ReferenceKind × Reference
  | (kind, r) =>
    (kind, if kind = .this ∧ around.classKind.isSome = false then r else r.resolve scopes)

theorem Agree.gets (h : Agree scopes around) (kind : ReferenceKind) (r : Reference)
    (hin : kind = .this → inClass = true) :
    Occurrence.Gets ⟨kind, r, around, inClass⟩ (r.resolve scopes).hops := by
  obtain ⟨name, hops⟩ := r
  cases hops with
  | some e => exact ⟨fun d hd => hd, nofun, nofun, nofun⟩
  | none =>
    refine ⟨nofun, fun _ hk hc => ?_, fun d _ _ => ?_, fun _ _ => ?_⟩
    · cases hc.symm.trans (hin hk)
    · refine Scope.distance?_eq_some_iff.trans ?_
      simp only [h.holds_iff]
      rfl
    · refine Scope.distance?_eq_none_iff.trans ?_
      simp only [h.holds_iff]
      rfl

theorem Agree.resolves (h : Agree scopes around) (A : Enclosing) (kind : ReferenceKind)
    (r : Reference) :
    Occurrence.Resolves ⟨kind, r, around, A.classKind.isSome⟩ (A.resolved scopes (kind, r)) := by
  by_cases hout : kind = .this ∧ A.classKind.isSome = false
  · have hin : ¬(kind = .this → A.classKind.isSome = true) := fun hin => by
      cases hout.2.symm.trans (hin hout.1)
    simp only [Enclosing.resolved, if_pos hout]
    exact ⟨rfl, rfl, fun _ hd => hd, fun hr _ _ => hr, fun _ _ hk => absurd hk hin,
      fun _ hk => absurd hk hin⟩
  · simp only [Enclosing.resolved, if_neg hout]
    refine ⟨rfl, rfl, h.gets kind r fun hk => ?_⟩
    exact Bool.not_eq_false _ ▸ fun hc => hout ⟨hk, hc⟩

mutual
theorem Expr.references_resolve (A : Enclosing) (scopes : List Scope) : ∀ e : Expr,
    (e.resolve A scopes).1.references = e.references.map (A.resolved scopes)
  | .missing | .literal _ => rfl
  | .super _ _ | .variable _ => by simp [Expr.resolve, Expr.references, Enclosing.resolved]
  | .this keyword => by
    simp only [Expr.resolve, Expr.references, List.map_cons, List.map_nil, Enclosing.resolved]
    cases A.classKind <;> rfl
  | .assign target value => by
    simp [Expr.resolve, Expr.references, Enclosing.resolved, value.references_resolve A scopes]
  | .get inner _ | .grouping inner | .unary _ inner => by
    simp only [Expr.resolve, Expr.references, inner.references_resolve A scopes]
  | .binary left _ right | .logical left _ right => by
    simp only [Expr.resolve, Expr.references, left.references_resolve A scopes,
      right.references_resolve A scopes, List.map_append]
  | .set object _ value => by
    simp only [Expr.resolve, Expr.references, object.references_resolve A scopes,
      value.references_resolve A scopes, List.map_append]
  | .call callee _ arguments => by
    simp only [Expr.resolve, Expr.references, callee.references_resolve A scopes,
      exprReferences_resolve A scopes arguments, List.map_append]
theorem exprReferences_resolve (A : Enclosing) (scopes : List Scope) : ∀ es : List Expr,
    exprReferences (resolveExprs A scopes es).1 = (exprReferences es).map (A.resolved scopes)
  | [] => rfl
  | e :: es => by
    simp only [resolveExprs, exprReferences, e.references_resolve A scopes,
      exprReferences_resolve A scopes es, List.map_append]
end

theorem Expr.optionReferences_resolve (A : Enclosing) (scopes : List Scope) (o : Option Expr) :
    optionReferences (resolveOption A scopes o).1 =
      (optionReferences o).map (A.resolved scopes) := by
  cases o with
  | none => rfl
  | some e => exact e.references_resolve A scopes

/-! ## Statements -/

/-- Some items are resolved to references in the order of the text, and the resolver has some scopes
behind them. -/
structure Lays (inClass : Bool) (around : List (List Item)) (items : List Item)
    (resolved : List (ReferenceKind × Reference)) (scopes : List Scope) : Prop where
  resolves : List.Forall₂ Occurrence.Resolves (itemOccurrences around inClass items) resolved
  agree : Agree scopes (passing items around)

namespace Lays

theorem nil (h : Agree scopes around) : Lays inClass around [] [] scopes :=
  ⟨.nil, h.passing (by simp)⟩

theorem append (h : Lays inClass around items rs scopes)
    (h' : Lays inClass (passing items around) more rs' scopes') :
    Lays inClass around (items ++ more) (rs ++ rs') scopes' where
  resolves := by
    rw [itemOccurrences_append]
    exact List.rel_append h.resolves h'.resolves
  agree := by rw [passing_append]; exact h'.agree

theorem references (A : Enclosing) (h : Agree scopes around)
    (rs : List (ReferenceKind × Reference)) :
    Lays A.classKind.isSome around (referenceItems rs) (rs.map (A.resolved scopes)) scopes := by
  induction rs generalizing around with
  | nil => exact .nil h
  | cons r rs ih =>
    have hpass : Agree scopes (passing [.refers r.1 r.2] around) := h.passing (by simp)
    have hfirst : Lays A.classKind.isSome around [.refers r.1 r.2] [A.resolved scopes r] scopes :=
      ⟨.cons (h.resolves A r.1 r.2) .nil, hpass⟩
    exact hfirst.append (ih hpass)

theorem declares (h : Agree scopes (passing [.declares x] around)) :
    Lays inClass around [.declares x] [] scopes := ⟨.nil, h⟩

theorem parameters (h : Agree scopes around) (ps : List Token) :
    Lays inClass around (parameterItems ps) [] (Scope.introduceEach ps scopes) := by
  induction ps generalizing scopes around with
  | nil => exact .nil h
  | cons p ps ih => exact (Lays.declares (h.introduce p)).append (ih (h.introduce p))

/-- Behind a scope, the scopes are those that were before it. -/
theorem scope (h : Agree scopes around)
    (hin : Lays (inClass || ofMethods) ([] :: around) items rs scopes') :
    Lays inClass around [.scope ofMethods items] rs scopes where
  resolves := by
    rw [itemOccurrences, itemOccurrences, List.append_nil, Item.occurrences]
    exact hin.resolves
  agree := h.passing (by simp)

end Lays

/-- A scope that begins with a declaration of a ready name. -/
theorem Lays.opening (h : Agree scopes around)
    (hin : Agree ([(x, true)] :: scopes) (passing [.declares x] ([] :: around)) →
      Lays (inClass || ofMethods) (passing [.declares x] ([] :: around)) items rs scopes') :
    Lays inClass around [.scope ofMethods (.declares x :: items)] rs scopes := by
  have hagree : Agree ([(x, true)] :: scopes) (passing [.declares x] ([] :: around)) := by
    refine .cons (fun y => ?_) h
    simp only [Bindings.contains, Bindings.get?_cons, List.nil_append, List.mem_singleton,
      Item.declares.injEq, eq_comm (a := y)]
    split <;> simp [*, Bindings.get?]
  exact .scope h ((Lays.declares hagree).append (hin hagree))

/-- The scopes around the methods of a class are those that the methods are resolved in. -/
theorem Lays.aroundMethods (h : Agree scopes around) (hasSuperclass : Bool)
    (hin : ∀ {around}, Agree (Scope.aroundMethods hasSuperclass scopes) around →
      Lays true around items rs (Scope.aroundMethods hasSuperclass scopes)) :
    Lays inClass around [methodScopes hasSuperclass items] rs scopes := by
  cases hasSuperclass with
  | false => exact .opening h fun h' => by rw [Bool.or_true]; exact hin h'
  | true =>
    exact .opening h fun hsuper => .opening hsuper fun h' => by
      rw [Bool.or_true]; exact hin h'

mutual
theorem Stmt.lays (A : Enclosing) : ∀ (s : Stmt) {scopes : List Scope} {around : List (List Item)},
    Agree scopes around → Lays A.classKind.isSome around s.items
      (s.resolve A scopes).tree.references (s.resolve A scopes).scopes
  | .missing, _, _, h => .nil h
  | .block body, _, _, h => .scope h (by rw [Bool.or_false]; exact stmts_lay A body h.push)
  | .classDecl name superclass methods, scopes, around, h => by
    have hname := h.introduce name
    have hmethods {kind around'} (h' : Agree (Scope.aroundMethods superclass.isSome
        (Scope.introduce name scopes)) around') :=
      methods_lay ⟨A.function, some kind⟩ methods h'
    simp only [Stmt.items, Stmt.resolve, Stmt.references]
    refine Lays.append (.declares hname) ?_
    cases superclass with
    | none => exact .aroundMethods hname false hmethods
    | some r =>
      have hparent : Lays A.classKind.isSome _ [.refers .variable r]
          [(.variable, r.resolve (Scope.introduce name scopes))] _ :=
        .references A hname [(.variable, r)]
      exact hparent.append (.aroundMethods hparent.agree true hmethods)
  | .expression value, scopes, around, h => by
    simp only [Stmt.resolve, Stmt.references, Stmt.items, value.references_resolve]
    exact .references A h _
  | .function f, scopes, around, h =>
    have hname := h.introduce f.name
    (Lays.declares hname).append (f.lays ⟨some .plain, A.classKind⟩ hname)
  | .ifElse condition thenBranch elseBranch, scopes, around, h => by
    simp only [Stmt.resolve, Stmt.references, Stmt.items, condition.references_resolve]
    have hcondition := Lays.references A h condition.references
    have hthen := thenBranch.lays A hcondition.agree
    rw [List.append_assoc]
    exact hcondition.append (hthen.append (elseBranch.lays A hthen.agree))
  | .print value, scopes, around, h => by
    simp only [Stmt.resolve, Stmt.references, Stmt.items, value.references_resolve]
    exact .references A h _
  | .returning _ value, scopes, around, h => by
    simp only [Stmt.resolve, Stmt.references, Stmt.items, Expr.optionReferences_resolve]
    exact .references A h _
  | .varDecl name initializer, scopes, around, h => by
    simp only [Stmt.resolve, Stmt.references, Stmt.items, Expr.optionReferences_resolve]
    have hdeclared := h.declare name.lexeme
    have hall := Lays.append (.declares hdeclared)
      (.references A hdeclared (Expr.optionReferences initializer))
    exact ⟨hall.resolves, hall.agree.define⟩
  | .whileLoop condition body, scopes, around, h => by
    simp only [Stmt.resolve, Stmt.references, Stmt.items, condition.references_resolve]
    have hcondition := Lays.references A h condition.references
    exact hcondition.append (body.lays A hcondition.agree)
theorem Function.lays (A : Enclosing) : ∀ (f : Function) {scopes : List Scope}
    {around : List (List Item)}, Agree scopes around →
      Lays A.classKind.isSome around [f.item] (f.resolve A scopes).1.references scopes
  | .mk name ps body, scopes, around, h => by
    simp only [Function.item, Function.resolve, Function.references, Scope.introduceAll_fst]
    have hps : Lays A.classKind.isSome _ _ _ _ := .parameters h.push ps
    exact .scope h (by rw [Bool.or_false]; exact hps.append (stmts_lay A body hps.agree))
theorem stmts_lay (A : Enclosing) : ∀ (ss : List Stmt) {scopes : List Scope}
    {around : List (List Item)}, Agree scopes around →
      Lays A.classKind.isSome around (stmtItems ss) (stmtReferences (resolveStmts A scopes ss).tree)
        (resolveStmts A scopes ss).scopes
  | [], _, _, h => .nil h
  | s :: ss, _, _, h => (s.lays A h).append (stmts_lay A ss (s.lays A h).agree)
theorem methods_lay (A : Enclosing) : ∀ (fs : List Function) {scopes : List Scope}
    {around : List (List Item)}, Agree scopes around →
      Lays A.classKind.isSome around (functionItems fs)
        (functionReferences (resolveMethods A scopes fs).1) scopes
  | [], _, _, h => .nil h
  | f :: fs, _, _, h => by
    have hf := f.lays ⟨some (.ofMethod f.name.lexeme), A.classKind⟩ h
    exact hf.append (methods_lay A fs hf.agree)
end

/-! ## Programs -/

/-- The occurrences are all references of a program, and the resolver keeps to their order: it gives
a reference without hops the distance to the nearest scope that declares its name before it, and
none exactly if no local scope does. A use of `this` outside of classes gets none. After the program
nothing is left of its scopes, and what comes next is resolved as it would be by itself. -/
theorem resolver_computes_lexical_distance (program : List Stmt) :
    (programOccurrences program).map Occurrence.listed = stmtReferences program ∧
      List.Forall₂ Occurrence.Resolves (programOccurrences program)
        (stmtReferences (resolveProgram program).1) ∧
      (resolveStmts .topLevel [] program).scopes = [] ∧
      ∀ more, resolveProgram (program ++ more) =
        ((resolveProgram program).1 ++ (resolveProgram more).1,
          (resolveProgram program).2 ++ (resolveProgram more).2) := by
  have hlays : Lays false [] (stmtItems program) _ _ := stmts_lay .topLevel program .nil
  refine ⟨listed_stmtItems program [] false, hlays.resolves, ?_, resolveProgram_append program⟩
  exact List.forall₂_nil_right_iff.1 hlays.agree

/-- `{ var a; { { a = nil; } } }`. -/
example : let a : Token := ⟨.identifier, "a", none, 1, 1⟩
    let program := [.block [.varDecl a none,
      .block [.block [.expression (.assign ⟨a, none⟩ (.literal .nil))]]]]
    (stmtReferences (resolveProgram program).1).map (·.2.hops) = [some 2] := by
  decide +kernel

end LoxLang
