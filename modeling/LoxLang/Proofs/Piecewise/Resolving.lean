import LoxLang.Proofs.LimitedWalks
import LoxLang.Proofs.Piecewise.Matching

/-!
# Resolving programs that match

Resolution looks at the words only, so what it makes of programs that match matches, and it finds as
many violations (`Matches.resolveProgram`). It goes as deep into the one as into the other
(`Matches.height`).
-/

namespace LoxLang

variable {P : Pairing}

/-! ## Names and scopes -/

theorem Scope.introduce_matches (h : P.rel t t') (Γ : List Scope) :
    introduce t' Γ = introduce t Γ := by
  rw [introduce, introduce, P.lexeme h]

theorem length_findingIf (condition : Bool) (t t' : Token) (v : Violation) :
    (findingIf condition t' v).length = (findingIf condition t v).length := by
  cases condition <;> rfl

theorem Scope.length_declareFindings (h : P.rel t t') (Γ : List Scope) :
    (declareFindings t' Γ).length = (declareFindings t Γ).length := by
  rw [declareFindings, declareFindings, P.lexeme h, length_findingIf]

theorem Scope.introduceAll_matches (h : List.Forall₂ P.rel ps ps') (Γ : List Scope) :
    (introduceAll ps' Γ).1 = (introduceAll ps Γ).1 ∧
      (introduceAll ps' Γ).2.length = (introduceAll ps Γ).2.length := by
  induction h generalizing Γ with
  | nil => exact ⟨rfl, rfl⟩
  | @cons p _ _ _ hp _ ih =>
    obtain ⟨hscopes, hlen⟩ := ih (introduce p Γ)
    simp only [introduceAll, introduce_matches hp, hscopes, List.length_append, hlen,
      length_declareFindings hp, and_self]

namespace Reference.Matches

variable {r r' : Reference}

theorem resolve (h : r.Matches P r') (Γ : List Scope) :
    (r.resolve Γ).Matches P (r'.resolve Γ) :=
  ⟨h.name, by rw [Reference.resolve, Reference.resolve, h.hops, P.lexeme h.name]⟩

theorem length_readFindings (h : r.Matches P r') (Γ : List Scope) :
    (r'.readFindings Γ).length = (r.readFindings Γ).length := by
  rw [readFindings, readFindings, P.lexeme h.name, length_findingIf]

theorem length_resolveSuperclass (h : r.Matches P r') (hn : P.rel t t') (Γ : List Scope) :
    (r'.resolveSuperclass Γ t').2.length = (r.resolveSuperclass Γ t).2.length := by
  simp only [resolveSuperclass, List.length_append, P.lexeme hn, P.lexeme h.name,
    length_findingIf _ r.name, h.length_readFindings]

end Reference.Matches

theorem length_returnFindings (t t' : Token) (around : Enclosing) (hasValue : Bool) :
    (around.returnFindings t' hasValue).length = (around.returnFindings t hasValue).length := by
  simp only [Enclosing.returnFindings, List.length_append, length_findingIf _ t]

/-! ## The walk -/

/-- Nodes of which resolution makes something that matches, with as many findings. -/
def Node.ResolveAlike (P : Pairing) : Node → Node → Prop
  | .expr e, .expr e' => ∀ around Γ,
    Matches P (.expr (e.resolve around Γ).1) (.expr (e'.resolve around Γ).1) ∧
      (e'.resolve around Γ).2.length = (e.resolve around Γ).2.length
  | .exprs es, .exprs es' => ∀ around Γ,
    Matches P (.exprs (resolveExprs around Γ es).1) (.exprs (resolveExprs around Γ es').1) ∧
      (resolveExprs around Γ es').2.length = (resolveExprs around Γ es).2.length
  | .stmt s, .stmt s' => ∀ around Γ,
    Matches P (.stmt (s.resolve around Γ).tree) (.stmt (s'.resolve around Γ).tree) ∧
      (s'.resolve around Γ).scopes = (s.resolve around Γ).scopes ∧
      (s'.resolve around Γ).findings.length = (s.resolve around Γ).findings.length
  | .stmts ss, .stmts ss' => ∀ around Γ,
    Matches P (.stmts (resolveStmts around Γ ss).tree) (.stmts (resolveStmts around Γ ss').tree) ∧
      (resolveStmts around Γ ss').scopes = (resolveStmts around Γ ss).scopes ∧
      (resolveStmts around Γ ss').findings.length = (resolveStmts around Γ ss).findings.length
  | .function f, .function f' => ∀ around Γ,
    Matches P (.function (f.resolve around Γ).1) (.function (f'.resolve around Γ).1) ∧
      (f'.resolve around Γ).2.length = (f.resolve around Γ).2.length
  | _, _ => False

theorem resolveMethods_alike
    (h : List.Forall₂ (fun f f' => P.rel f.name f'.name ∧
      Node.ResolveAlike P (.function f) (.function f')) fs fs') (around : Enclosing)
    (Γ : List Scope) :
    List.Forall₂ (FunctionMatches P) (resolveMethods around Γ fs).1
        (resolveMethods around Γ fs').1 ∧
      (resolveMethods around Γ fs').2.length = (resolveMethods around Γ fs).2.length := by
  induction h with
  | nil => exact ⟨.nil, rfl⟩
  | cons hf _ ih =>
    obtain ⟨hname, hf⟩ := hf
    obtain ⟨hmatches, hlen⟩ := hf ⟨some (.ofMethod _), around.classKind⟩ Γ
    simp only [resolveMethods, P.lexeme hname, List.length_append]
    exact ⟨.cons hmatches ih.1, by rw [hlen, ih.2]⟩

/-- Nodes that match are resolved alike. -/
theorem Matches.resolveAlike (h : Matches P n n') : n.ResolveAlike P n' := by
  induction h with
  | noExpr | literal | noExprs | noStmt | noStmts =>
    intro around Γ
    simp only [Expr.resolve, resolveExprs, Stmt.resolve, resolveStmts, and_true]
    constructor
  | assign hr _ ih =>
    intro around Γ
    simp only [Expr.resolve]
    exact ⟨.assign (hr.resolve Γ) (ih around Γ).1, (ih around Γ).2⟩
  | binary _ ht _ ihl ihr =>
    intro around Γ
    simp only [Expr.resolve, List.length_append, (ihl around Γ).2, (ihr around Γ).2, and_true]
    exact .binary (ihl around Γ).1 ht (ihr around Γ).1
  | call _ ht _ ihf ihes =>
    intro around Γ
    simp only [Expr.resolve, List.length_append, (ihf around Γ).2, (ihes around Γ).2, and_true]
    exact .call (ihf around Γ).1 ht (ihes around Γ).1
  | get _ ht ih =>
    intro around Γ
    simp only [Expr.resolve]
    exact ⟨.get (ih around Γ).1 ht, (ih around Γ).2⟩
  | grouping _ ih =>
    intro around Γ
    simp only [Expr.resolve]
    exact ⟨.grouping (ih around Γ).1, (ih around Γ).2⟩
  | logical _ ht _ ihl ihr =>
    intro around Γ
    simp only [Expr.resolve, List.length_append, (ihl around Γ).2, (ihr around Γ).2, and_true]
    exact .logical (ihl around Γ).1 ht (ihr around Γ).1
  | set _ ht _ ihe ihv =>
    intro around Γ
    simp only [Expr.resolve, List.length_append, (ihe around Γ).2, (ihv around Γ).2, and_true]
    exact .set (ihe around Γ).1 ht (ihv around Γ).1
  | super hk ht =>
    intro around Γ
    simp only [Expr.resolve]
    refine ⟨.super (hk.resolve Γ) ht, ?_⟩
    unfold Enclosing.superFindings
    split <;> rfl
  | this hk =>
    intro around Γ
    simp only [Expr.resolve]
    split
    · exact ⟨.this hk, rfl⟩
    · exact ⟨.this (hk.resolve Γ), rfl⟩
  | unary ht _ ih =>
    intro around Γ
    simp only [Expr.resolve]
    exact ⟨.unary ht (ih around Γ).1, (ih around Γ).2⟩
  | «variable» hr =>
    intro around Γ
    simp only [Expr.resolve]
    exact ⟨.variable (hr.resolve Γ), hr.length_readFindings Γ⟩
  | exprs _ _ ih ihs =>
    intro around Γ
    simp only [resolveExprs, List.length_append, (ih around Γ).2, (ihs around Γ).2, and_true]
    exact .exprs (ih around Γ).1 (ihs around Γ).1
  | block _ ih =>
    intro around Γ
    simp only [Stmt.resolve, true_and]
    exact ⟨.block (ih around _).1, (ih around _).2.2⟩
  | @classDecl name _ superclass superclass' fs fs' hn hr hlen hfs ih =>
    intro around Γ
    have hfs : List.Forall₂ (fun f f' => P.rel f.name f'.name ∧
        Node.ResolveAlike P (.function f) (.function f')) fs fs' :=
      List.forall₂_iff_zip.2 ⟨hlen, fun h => ⟨(hfs _ _ h).name, ih _ _ h⟩⟩
    have hmethods := resolveMethods_alike hfs
    simp only [Stmt.resolve, Scope.introduce_matches hn, List.length_append,
      Scope.length_declareFindings hn, true_and]
    cases hr with
    | none =>
      obtain ⟨hm, hlen⟩ := hmethods ⟨around.function, some .base⟩
        (Scope.aroundMethods false (Scope.introduce name Γ))
      exact ⟨.classDecl_of_forall₂ hn .none hm, congrArg _ hlen⟩
    | some hr =>
      obtain ⟨hm, hlen⟩ := hmethods ⟨around.function, some .derived⟩
        (Scope.aroundMethods true (Scope.introduce name Γ))
      refine ⟨.classDecl_of_forall₂ hn (.some (hr.resolve _)) hm, ?_⟩
      simp only [Option.map_some, Option.getD_some, Option.isSome_some, if_true, hlen,
        hr.length_resolveSuperclass hn]
  | expression _ ih =>
    intro around Γ
    simp only [Stmt.resolve, true_and]
    exact ⟨.expression (ih around Γ).1, (ih around Γ).2⟩
  | function hf ih =>
    intro around Γ
    simp only [Stmt.resolve, Scope.introduce_matches hf.name, List.length_append,
      Scope.length_declareFindings hf.name, (ih _ _).2, and_self, and_true]
    exact .function (ih _ _).1
  | ifElse _ _ _ ihc iht ihe =>
    intro around Γ
    simp only [Stmt.resolve, List.length_append, (ihc around Γ).2, (iht around Γ).2,
      (ihe around _).2, and_self, and_true]
    exact .ifElse (ihc around Γ).1 (iht around Γ).1 (ihe around _).1
  | print _ ih =>
    intro around Γ
    simp only [Stmt.resolve, true_and]
    exact ⟨.print (ih around Γ).1, (ih around Γ).2⟩
  | @returnNil k k' ht =>
    intro around Γ
    simp only [Stmt.resolve, Expr.resolveOption, List.length_append, length_returnFindings k k',
      and_self, and_true]
    exact .returnNil ht
  | @returnValue k k' _ _ ht _ ih =>
    intro around Γ
    simp only [Stmt.resolve, Expr.resolveOption, Option.isSome_some, List.length_append,
      length_returnFindings k k', (ih around Γ).2, and_self, and_true]
    exact .returnValue ht (ih around Γ).1
  | varNil ht =>
    intro around Γ
    simp only [Stmt.resolve, Expr.resolveOption, List.length_append, P.lexeme ht,
      Scope.length_declareFindings ht, and_self, and_true]
    exact .varNil ht
  | varValue ht _ ih =>
    intro around Γ
    simp only [Stmt.resolve, Expr.resolveOption, List.length_append, P.lexeme ht,
      Scope.length_declareFindings ht, (ih around _).2, and_self, and_true]
    exact .varValue ht (ih around _).1
  | whileLoop _ _ ihc ihb =>
    intro around Γ
    simp only [Stmt.resolve, List.length_append, (ihc around Γ).2, (ihb around Γ).2, and_self,
      and_true]
    exact .whileLoop (ihc around Γ).1 (ihb around Γ).1
  | stmts _ _ ih ihs =>
    intro around Γ
    simp only [resolveStmts, List.length_append, (ih around Γ).2, (ihs around _).2, and_self,
      and_true]
    exact .stmts (ih around Γ).1 (ihs around _).1
  | @body _ _ ps _ _ _ hn hps _ ih =>
    intro around Γ
    obtain ⟨hscopes, hlen⟩ := Scope.introduceAll_matches hps ([] :: Γ)
    simp only [Function.resolve, hscopes, List.length_append, hlen, (ih around _).2, and_true]
    exact .body hn hps (ih around _).1

/-- The programs that matching programs are resolved to match, and neither is less accepted than the
other. -/
theorem Matches.resolveProgram (h : Matches P (.stmts ss) (.stmts ss')) :
    Matches P (.stmts (resolveProgram ss).1) (.stmts (resolveProgram ss').1) ∧
      ((resolveProgram ss).2 = [] → (resolveProgram ss').2 = []) := by
  obtain ⟨hm, -, hlen⟩ := h.resolveAlike .topLevel []
  refine ⟨hm, fun hnil => ?_⟩
  simp only [LoxLang.resolveProgram, List.map_eq_nil_iff] at hnil ⊢
  rwa [hnil, List.length_nil, List.length_eq_zero_iff] at hlen

/-! ## Heights -/

/-- How many nodes deep a piece is. -/
def Node.height : Node → Nat
  | .expr e => e.height
  | .exprs es => exprsHeight es
  | .stmt t => t.height
  | .stmts ts => stmtsHeight ts
  | .function f => f.height

theorem methodsHeight_eq (h : List.Forall₂ (fun f f' : Function => f'.height = f.height) fs fs') :
    methodsHeight fs' = methodsHeight fs := by
  induction h with
  | nil => rfl
  | cons hf _ ih => rw [methodsHeight, methodsHeight, hf, ih]

/-- Nodes that match are equally high. -/
theorem Matches.height (h : Matches P n n') : n'.height = n.height := by
  induction h with
  | @classDecl _ _ _ _ fs fs' _ hr hlen _ ih =>
    have hfs : List.Forall₂ (fun f f' : Function => f'.height = f.height) fs fs' :=
      List.forall₂_iff_zip.2 ⟨hlen, fun h => ih _ _ h⟩
    cases hr <;> simp only [Node.height, Stmt.height, methodsHeight_eq hfs, Option.toList_none,
      Option.toList_some, List.length_nil, List.length_singleton]
  | _ => simp_all only [Node.height, Expr.height, exprsHeight, Stmt.height, stmtsHeight,
      Function.height, Expr.heightOption]

end LoxLang
