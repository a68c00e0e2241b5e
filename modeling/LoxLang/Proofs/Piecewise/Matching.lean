import LoxLang.Heap
import LoxLang.Proofs.Sites
import Mathlib.Data.List.Forall2

/-!
# Trees that match

Trees match if they are the same but for the tokens, which stand for one another (`Matches`). What a
pairing of tokens keeps is the word; where a token stands may differ (`Pairing`).
-/

namespace LoxLang

/-! ## The tokens of a tree -/

mutual
/-- All tokens that a tree holds. -/
def Expr.tokens : Expr → List Token
  | .missing | .literal _ => []
  | .assign target value => target.name :: value.tokens
  | .binary left operator right | .logical left operator right =>
    operator :: (left.tokens ++ right.tokens)
  | .call callee paren arguments => paren :: (callee.tokens ++ exprsTokens arguments)
  | .get object name => name :: object.tokens
  | .grouping inner => inner.tokens
  | .set object name value => name :: (object.tokens ++ value.tokens)
  | .super keyword method => [keyword.name, method]
  | .this keyword => [keyword.name]
  | .unary operator right => operator :: right.tokens
  | .variable target => [target.name]
def exprsTokens : List Expr → List Token
  | [] => []
  | e :: rest => e.tokens ++ exprsTokens rest
end

mutual
def Stmt.tokens : Stmt → List Token
  | .missing => []
  | .block body => stmtsTokens body
  | .classDecl name superclass methods =>
    name :: (superclass.toList.map Reference.name ++ functionsTokens methods)
  | .expression value | .print value => value.tokens
  | .function f => f.tokens
  | .ifElse condition thenBranch elseBranch =>
    condition.tokens ++ (thenBranch.tokens ++ elseBranch.tokens)
  | .returning keyword none => [keyword]
  | .returning keyword (some value) => keyword :: value.tokens
  | .varDecl name none => [name]
  | .varDecl name (some value) => name :: value.tokens
  | .whileLoop condition body => condition.tokens ++ body.tokens
def Function.tokens : Function → List Token
  | .mk name parameters body => name :: (parameters ++ stmtsTokens body)
def functionsTokens : List Function → List Token
  | [] => []
  | f :: rest => f.tokens ++ functionsTokens rest
def stmtsTokens : List Stmt → List Token
  | [] => []
  | s :: rest => s.tokens ++ stmtsTokens rest
end

/-- Whether a function in memory holds a token. -/
def Heap.Holds (h : Heap) (t : Token) : Prop := ∃ c ∈ h.closures, t ∈ c.declaration.tokens

/-! ## Matching trees -/

/-- Tokens that stand for one another: the same word, whatever its place. -/
structure Pairing where
  rel : Token → Token → Prop
  kind : rel t t' → t'.kind = t.kind
  lexeme : rel t t' → t'.lexeme = t.lexeme

namespace Pairing

/-- Every token stands for itself. -/
def equal : Pairing := ⟨Eq, fun h => h ▸ rfl, fun h => h ▸ rfl⟩

end Pairing

structure Reference.Matches (P : Pairing) (r r' : Reference) : Prop where
  name : P.rel r.name r'.name
  hops : r'.hops = r.hops

inductive Matches (P : Pairing) : Node → Node → Prop where
  | noExpr : Matches P (.expr .missing) (.expr .missing)
  | assign : r.Matches P r' → Matches P (.expr e) (.expr e') →
      Matches P (.expr (.assign r e)) (.expr (.assign r' e'))
  | binary : Matches P (.expr l) (.expr l') → P.rel op op' → Matches P (.expr r) (.expr r') →
      Matches P (.expr (.binary l op r)) (.expr (.binary l' op' r'))
  | call : Matches P (.expr f) (.expr f') → P.rel paren paren' →
      Matches P (.exprs es) (.exprs es') →
      Matches P (.expr (.call f paren es)) (.expr (.call f' paren' es'))
  | get : Matches P (.expr e) (.expr e') → P.rel name name' →
      Matches P (.expr (.get e name)) (.expr (.get e' name'))
  | grouping : Matches P (.expr e) (.expr e') →
      Matches P (.expr (.grouping e)) (.expr (.grouping e'))
  | literal : Matches P (.expr (.literal c)) (.expr (.literal c))
  | logical : Matches P (.expr l) (.expr l') → P.rel op op' → Matches P (.expr r) (.expr r') →
      Matches P (.expr (.logical l op r)) (.expr (.logical l' op' r'))
  | set : Matches P (.expr e) (.expr e') → P.rel name name' → Matches P (.expr v) (.expr v') →
      Matches P (.expr (.set e name v)) (.expr (.set e' name' v'))
  | super : k.Matches P k' → P.rel method method' →
      Matches P (.expr (.super k method)) (.expr (.super k' method'))
  | this : k.Matches P k' → Matches P (.expr (.this k)) (.expr (.this k'))
  | unary : P.rel op op' → Matches P (.expr e) (.expr e') →
      Matches P (.expr (.unary op e)) (.expr (.unary op' e'))
  | variable : r.Matches P r' → Matches P (.expr (.variable r)) (.expr (.variable r'))
  | noExprs : Matches P (.exprs []) (.exprs [])
  | exprs : Matches P (.expr e) (.expr e') → Matches P (.exprs es) (.exprs es') →
      Matches P (.exprs (e :: es)) (.exprs (e' :: es'))
  | noStmt : Matches P (.stmt .missing) (.stmt .missing)
  | block : Matches P (.stmts ss) (.stmts ss') →
      Matches P (.stmt (.block ss)) (.stmt (.block ss'))
  | classDecl : P.rel name name' → Option.Rel (Reference.Matches P) superclass superclass' →
      fs.length = fs'.length →
      (∀ f f', (f, f') ∈ fs.zip fs' → Matches P (.function f) (.function f')) →
      Matches P (.stmt (.classDecl name superclass fs)) (.stmt (.classDecl name' superclass' fs'))
  | expression : Matches P (.expr e) (.expr e') →
      Matches P (.stmt (.expression e)) (.stmt (.expression e'))
  | function : Matches P (.function f) (.function f') →
      Matches P (.stmt (.function f)) (.stmt (.function f'))
  | ifElse : Matches P (.expr c) (.expr c') → Matches P (.stmt t) (.stmt t') →
      Matches P (.stmt e) (.stmt e') →
      Matches P (.stmt (.ifElse c t e)) (.stmt (.ifElse c' t' e'))
  | print : Matches P (.expr e) (.expr e') → Matches P (.stmt (.print e)) (.stmt (.print e'))
  | returnNil : P.rel k k' → Matches P (.stmt (.returning k none)) (.stmt (.returning k' none))
  | returnValue : P.rel k k' → Matches P (.expr e) (.expr e') →
      Matches P (.stmt (.returning k (some e))) (.stmt (.returning k' (some e')))
  | varNil : P.rel name name' →
      Matches P (.stmt (.varDecl name none)) (.stmt (.varDecl name' none))
  | varValue : P.rel name name' → Matches P (.expr e) (.expr e') →
      Matches P (.stmt (.varDecl name (some e))) (.stmt (.varDecl name' (some e')))
  | whileLoop : Matches P (.expr c) (.expr c') → Matches P (.stmt b) (.stmt b') →
      Matches P (.stmt (.whileLoop c b)) (.stmt (.whileLoop c' b'))
  | noStmts : Matches P (.stmts []) (.stmts [])
  | stmts : Matches P (.stmt s) (.stmt s') → Matches P (.stmts ss) (.stmts ss') →
      Matches P (.stmts (s :: ss)) (.stmts (s' :: ss'))
  | body : P.rel name name' → List.Forall₂ P.rel ps ps' → Matches P (.stmts ss) (.stmts ss') →
      Matches P (.function (.mk name ps ss)) (.function (.mk name' ps' ss'))

section

variable (P : Pairing)

abbrev ExprMatches (e e' : Expr) : Prop := Matches P (.expr e) (.expr e')

abbrev StmtMatches (s s' : Stmt) : Prop := Matches P (.stmt s) (.stmt s')

abbrev FunctionMatches (f f' : Function) : Prop := Matches P (.function f) (.function f')

end

section

variable {P : Pairing}

theorem Reference.matches_self {r : Reference} (h : P.rel r.name r.name) : r.Matches P r := ⟨h, rfl⟩

mutual
theorem Expr.matches_self : ∀ e : Expr, (∀ t ∈ e.tokens, P.rel t t) → ExprMatches P e e
  | .missing, _ => .noExpr
  | .literal _, _ => .literal
  | .assign _ e, h => by
    simp only [Expr.tokens, List.forall_mem_cons] at h
    exact .assign (Reference.matches_self h.1) (e.matches_self h.2)
  | .binary l _ r, h => by
    simp only [Expr.tokens, List.forall_mem_cons, List.forall_mem_append] at h
    exact .binary (l.matches_self h.2.1) h.1 (r.matches_self h.2.2)
  | .call f _ es, h => by
    simp only [Expr.tokens, List.forall_mem_cons, List.forall_mem_append] at h
    exact .call (f.matches_self h.2.1) h.1 (exprs_match_self es h.2.2)
  | .get e _, h => by
    simp only [Expr.tokens, List.forall_mem_cons] at h
    exact .get (e.matches_self h.2) h.1
  | .grouping e, h => by
    simp only [Expr.tokens] at h
    exact .grouping (e.matches_self h)
  | .logical l _ r, h => by
    simp only [Expr.tokens, List.forall_mem_cons, List.forall_mem_append] at h
    exact .logical (l.matches_self h.2.1) h.1 (r.matches_self h.2.2)
  | .set e _ v, h => by
    simp only [Expr.tokens, List.forall_mem_cons, List.forall_mem_append] at h
    exact .set (e.matches_self h.2.1) h.1 (v.matches_self h.2.2)
  | .super _ _, h => by
    simp only [Expr.tokens, List.forall_mem_cons] at h
    exact .super (Reference.matches_self h.1) h.2.1
  | .this _, h => .this (Reference.matches_self (h _ (by simp [Expr.tokens])))
  | .unary _ e, h => by
    simp only [Expr.tokens, List.forall_mem_cons] at h
    exact .unary h.1 (e.matches_self h.2)
  | .variable _, h => .variable (Reference.matches_self (h _ (by simp [Expr.tokens])))
theorem exprs_match_self :
    ∀ es : List Expr, (∀ t ∈ exprsTokens es, P.rel t t) → Matches P (.exprs es) (.exprs es)
  | [], _ => .noExprs
  | e :: es, h => by
    simp only [exprsTokens, List.forall_mem_append] at h
    exact .exprs (e.matches_self h.1) (exprs_match_self es h.2)
end

theorem Matches.classDecl_of_forall₂ (hn : P.rel name name')
    (hr : Option.Rel (Reference.Matches P) superclass superclass')
    (hfs : List.Forall₂ (FunctionMatches P) fs fs') :
    Matches P (.stmt (.classDecl name superclass fs)) (.stmt (.classDecl name' superclass' fs')) :=
  .classDecl hn hr hfs.length_eq fun _ _ h => (List.forall₂_iff_zip.1 hfs).2 h

mutual
theorem Stmt.matches_self : ∀ s : Stmt, (∀ t ∈ s.tokens, P.rel t t) → StmtMatches P s s
  | .missing, _ => .noStmt
  | .block ss, h => by
    simp only [Stmt.tokens] at h
    exact .block (stmts_match_self ss h)
  | .classDecl _ superclass fs, h => by
    simp only [Stmt.tokens, List.forall_mem_cons, List.forall_mem_append] at h
    refine .classDecl_of_forall₂ h.1 ?_ (functions_match_self fs h.2.2)
    cases superclass with
    | none => exact .none
    | some r => exact .some (Reference.matches_self (h.2.1 _ (by simp)))
  | .expression e, h => by
    simp only [Stmt.tokens] at h
    exact .expression (e.matches_self h)
  | .function f, h => by
    simp only [Stmt.tokens] at h
    exact .function (f.matches_self h)
  | .ifElse c t e, h => by
    simp only [Stmt.tokens, List.forall_mem_append] at h
    exact .ifElse (c.matches_self h.1) (t.matches_self h.2.1) (e.matches_self h.2.2)
  | .print e, h => by
    simp only [Stmt.tokens] at h
    exact .print (e.matches_self h)
  | .returning _ none, h => .returnNil (h _ (by simp [Stmt.tokens]))
  | .returning _ (some e), h => by
    simp only [Stmt.tokens, List.forall_mem_cons] at h
    exact .returnValue h.1 (e.matches_self h.2)
  | .varDecl _ none, h => .varNil (h _ (by simp [Stmt.tokens]))
  | .varDecl _ (some e), h => by
    simp only [Stmt.tokens, List.forall_mem_cons] at h
    exact .varValue h.1 (e.matches_self h.2)
  | .whileLoop c b, h => by
    simp only [Stmt.tokens, List.forall_mem_append] at h
    exact .whileLoop (c.matches_self h.1) (b.matches_self h.2)
theorem Function.matches_self :
    ∀ f : Function, (∀ t ∈ f.tokens, P.rel t t) → FunctionMatches P f f
  | .mk _ ps ss, h => by
    simp only [Function.tokens, List.forall_mem_cons, List.forall_mem_append] at h
    exact .body h.1 (List.forall₂_same.2 h.2.1) (stmts_match_self ss h.2.2)
theorem functions_match_self : ∀ fs : List Function, (∀ t ∈ functionsTokens fs, P.rel t t) →
    List.Forall₂ (FunctionMatches P) fs fs
  | [], _ => .nil
  | f :: fs, h => by
    simp only [functionsTokens, List.forall_mem_append] at h
    exact .cons (f.matches_self h.1) (functions_match_self fs h.2)
theorem stmts_match_self :
    ∀ ss : List Stmt, (∀ t ∈ stmtsTokens ss, P.rel t t) → Matches P (.stmts ss) (.stmts ss)
  | [], _ => .noStmts
  | s :: ss, h => by
    simp only [stmtsTokens, List.forall_mem_append] at h
    exact .stmts (s.matches_self h.1) (stmts_match_self ss h.2)
end

namespace Matches

variable {f f' : Function}

theorem name (h : FunctionMatches P f f') : P.rel f.name f'.name := by
  cases h with
  | body hn => exact hn

theorem parameters (h : FunctionMatches P f f') :
    List.Forall₂ P.rel f.parameters f'.parameters := by
  cases h with
  | body _ hps => exact hps

theorem function_body (h : FunctionMatches P f f') :
    Matches P (.stmts f.body) (.stmts f'.body) := by
  cases h with
  | body _ _ hbody => exact hbody

end Matches

theorem Reference.Matches.eq {r r' : Reference} (h : r.Matches .equal r') : r' = r := by
  obtain ⟨name, hops⟩ := r
  obtain ⟨name', hops'⟩ := r'
  obtain ⟨hname, hhops⟩ := h
  cases hname
  cases hhops
  rfl

/-- Trees that match with equal tokens are equal. -/
theorem Matches.eq (h : Matches .equal n n') : n' = n := by
  induction h with
  | noExpr | literal | noExprs | noStmt | noStmts => rfl
  | this hr | «variable» hr => rw [hr.eq]
  | super hk hm => cases hm; rw [hk.eq]
  | returnNil ht | varNil ht => cases ht; rfl
  | assign hr _ ih => cases ih; rw [hr.eq]
  | grouping _ ih | block _ ih | expression _ ih | function _ ih | print _ ih => cases ih; rfl
  | unary ht _ ih | returnValue ht _ ih | varValue ht _ ih => cases ht; cases ih; rfl
  | get _ ht ih => cases ht; cases ih; rfl
  | exprs _ _ ih ih' | stmts _ _ ih ih' | whileLoop _ _ ih ih' => cases ih; cases ih'; rfl
  | binary _ ht _ ih ih' | call _ ht _ ih ih' | logical _ ht _ ih ih' | set _ ht _ ih ih' =>
    cases ht; cases ih; cases ih'; rfl
  | ifElse _ _ _ ihc iht ihe => cases ihc; cases iht; cases ihe; rfl
  | @body _ _ ps ps' _ _ hn hps _ ih =>
    have hps : List.Forall₂ Eq ps ps' := hps
    rw [List.forall₂_eq_eq_eq] at hps
    cases hn
    cases hps
    cases ih
    rfl
  | @classDecl _ _ superclass superclass' fs fs' hn hr hlen _ ih =>
    cases hn
    have hfs : List.Forall₂ Eq fs fs' :=
      List.forall₂_iff_zip.2 ⟨hlen, fun h => (Node.function.inj (ih _ _ h)).symm⟩
    rw [List.forall₂_eq_eq_eq] at hfs
    cases hfs
    cases hr with
    | none => rfl
    | some h => rw [h.eq]

end

end LoxLang
