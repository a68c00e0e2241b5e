import LoxLang.Proofs.Lexemes
import LoxLang.Proofs.Parsing.Sound
import LoxLang.Proofs.Piecewise.Deriving

/-!
# Contents of tokens

A reading looks at the contents of tokens only. A rule that is given other tokens with the same
contents, however they are paired, reads a tree that matches, or gives up, or stops, at the same
token and with reports at tokens that stand for one another (`Rule.Alike`). So two lists of tokens
with the same contents have the same reading, apart from places (`readProgram_alike`,
`readExpression_alike`).
-/

namespace LoxLang

/-- Tokens that stand for one another are the same but for their places. -/
def Pairing.content : Pairing where
  rel t t' := t'.content = t.content
  kind h := congrArg Prod.fst h
  lexeme h := congrArg (·.2.1) h

/-- The pairing is of tokens with the same contents. -/
def Pairing.KeepsContents (P : Pairing) : Prop := ∀ ⦃t t'⦄, P.rel t t' → content.rel t t'

variable {P : Pairing}

/-- What a report says, wherever it is. -/
def Report.content (r : Report) : ReportKind × String × String × String :=
  (r.kind, r.message, r.place, r.lexeme)

/-- Reports that say the same at tokens that stand for one another. -/
inductive Report.Matches (P : Pairing) : Report → Report → Prop where
  | atToken {message : String} : P.rel t t' → Matches P (.atToken t message) (.atToken t' message)

theorem Report.Matches.content (h : Report.Matches P r r') : r'.content = r.content := by
  cases h with
  | atToken ht => simp only [Report.content, Report.atToken, P.kind ht, P.lexeme ht]

theorem map_content_of_matches (h : List.Forall₂ (Report.Matches P) rs rs') :
    rs'.map Report.content = rs.map Report.content := by
  induction h with
  | nil => rfl
  | cons hr _ ih => rw [List.map_cons, List.map_cons, hr.content, ih]

/-- Readings that stand at tokens, and have made reports, that stand for one another. -/
structure Cursor.Alike (P : Pairing) (c c' : Cursor) : Prop where
  rest : List.Forall₂ P.rel c.rest c'.rest
  made : List.Forall₂ (Report.Matches P) c.made c'.made

/-- The token at the front is the same, or the end is. -/
theorem Cursor.Alike.front (h : Cursor.Alike P c c') (hstop : P.rel stop stop') :
    P.rel (c.rest.headD stop) (c'.rest.headD stop') := by
  obtain ⟨ts, made⟩ := c
  obtain ⟨ts', made'⟩ := c'
  cases h.rest with
  | nil => exact hstop
  | cons ht => exact ht

/-- Outcomes with values that are related, in front of the same token and with the same reports. -/
inductive Outcome.Alike (P : Pairing) (R : α → α → Prop) : Outcome α → Outcome α → Prop where
  | read : R a a' → c.Alike P c' → Alike P R (.read a c) (.read a' c')
  | gaveUp : c.Alike P c' → Alike P R (.gaveUp c) (.gaveUp c')
  | tooDeep : List.Forall₂ (Report.Matches P) made made' →
    Alike P R (.tooDeep made) (.tooDeep made')

namespace Rule

/-- Given tokens that stand for one another, two rules come out alike. -/
def Alike (P : Pairing) (R : α → α → Prop) (p q : Rule α) : Prop :=
  ∀ ⦃stop stop' c c'⦄, P.rel stop stop' → c.Alike P c' →
    Outcome.Alike P R (p stop c) (q stop' c')

section

variable {R : α → α → Prop} {S : β → β → Prop} {p q : Rule α} {f g : α → Rule β}

theorem alike_pure (h : R a b) : Alike P R (pure a) (pure b) := fun _ _ _ _ _ hc => .read h hc

theorem Alike.bind (hp : Alike P R p q) (hf : ∀ a b, R a b → Alike P S (f a) (g b)) :
    Alike P S (p >>= f) (q >>= g) := by
  intro stop stop' c c' hstop hc
  change Outcome.Alike P S (Rule.bind p f stop c) (Rule.bind q g stop' c')
  have h := hp hstop hc
  unfold Rule.bind
  generalize p stop c = o at h
  generalize q stop' c' = o' at h
  cases h with
  | read ha hc => exact hf _ _ ha hstop hc
  | gaveUp hc => exact .gaveUp hc
  | tooDeep hm => exact .tooDeep hm

/-- Rules behind one whose value is the same. -/
theorem Alike.bindEq {p q : Rule α} (hp : Alike P Eq p q) (hf : ∀ a, Alike P S (f a) (g a)) :
    Alike P S (p >>= f) (q >>= g) :=
  hp.bind fun a _ h => h ▸ hf a

theorem alike_tooDeep : Alike P R tooDeep tooDeep := fun _ _ _ _ _ hc => .tooDeep hc.made

theorem alike_remaining : Alike P (List.Forall₂ P.rel) remaining remaining :=
  fun _ _ _ _ _ hc => .read hc.rest hc

theorem alike_atEnd : Alike P Eq atEnd atEnd := by
  rintro stop stop' ⟨ts, made⟩ ⟨ts', made'⟩ _ hc
  refine .read ?_ hc
  cases hc.rest <;> rfl

theorem alike_peek : Alike P P.rel peek peek :=
  fun _ _ _ _ hstop hc => .read (hc.front hstop) hc

theorem alike_complain (ht : P.rel t t') :
    Alike P Eq (complain t message) (complain t' message) := by
  intro stop stop' c c' _ hc
  exact .read rfl ⟨hc.rest, .cons (.atToken ht) hc.made⟩

theorem alike_reject : Alike P R (reject message) (reject message) := by
  intro stop stop' c c' hstop hc
  exact .gaveUp ⟨hc.rest, .cons (.atToken (hc.front hstop)) hc.made⟩

theorem alike_sees : Alike P Eq (sees kinds) (sees kinds) := by
  rintro stop stop' ⟨ts, made⟩ ⟨ts', made'⟩ _ hc
  obtain ⟨hts, hmade⟩ := hc
  cases hts with
  | nil => exact .read rfl ⟨.nil, hmade⟩
  | cons ht hts =>
    exact .read (congrArg kinds.contains (P.kind ht).symm) ⟨.cons ht hts, hmade⟩

theorem alike_accept :
    Alike P (Option.Rel P.rel) (accept kinds) (accept kinds) := by
  rintro stop stop' ⟨ts, made⟩ ⟨ts', made'⟩ _ hc
  obtain ⟨hts, hmade⟩ := hc
  cases hts with
  | nil => exact .read .none ⟨.nil, hmade⟩
  | cons ht hts =>
    simp only [accept, P.kind ht]
    split
    · exact .read (.some ht) ⟨hts, hmade⟩
    · exact .read .none ⟨.cons ht hts, hmade⟩

/-- Rules behind a token that may be there. -/
theorem Alike.accept {f g : Option Token → Rule β} (hnone : Alike P S (f none) (g none))
    (hsome : ∀ t t', P.rel t t' → Alike P S (f (some t)) (g (some t'))) :
    Alike P S (accept kinds >>= f) (accept kinds >>= g) := by
  refine alike_accept.bind fun a b h => ?_
  cases h with
  | none => exact hnone
  | some ht => exact hsome _ _ ht

theorem alike_expect : Alike P P.rel (expect kind message) (expect kind message) :=
  .accept alike_reject fun _ _ ht => alike_pure ht

/-- Rules behind a token that has to be there. -/
theorem Alike.expect {f g : Token → Rule β}
    (hf : ∀ t t', P.rel t t' → Alike P S (f t) (g t')) :
    Alike P S (expect kind message >>= f) (expect kind message >>= g) :=
  alike_expect.bind hf

/-! ## Loops -/

theorem alike_piecesInto {turns turns' : List Token} (hp : Alike P R p q)
    (hturns : List.Forall₂ P.rel turns turns') (hacc : List.Forall₂ R acc acc') :
    Alike P (List.Forall₂ R) (piecesInto kinds p turns acc) (piecesInto kinds q turns' acc') := by
  induction hturns generalizing acc acc' with
  | nil => exact alike_pure (List.rel_reverse hacc)
  | cons _ _ ih =>
    refine alike_atEnd.bindEq fun _ => alike_sees.bindEq fun _ => ?_
    split
    · exact alike_pure (List.rel_reverse hacc)
    · exact hp.bind fun _ _ h => ih (.cons h hacc)

theorem alike_piecesUntil (hp : Alike P R p q) :
    Alike P (List.Forall₂ R) (piecesUntil kinds p) (piecesUntil kinds q) :=
  alike_remaining.bind fun _ _ h => alike_piecesInto hp h .nil

theorem alike_furtherInto {turns turns' : List Token} (hp : Alike P R p q)
    (hturns : List.Forall₂ P.rel turns turns') (hacc : List.Forall₂ R acc acc') :
    Alike P (List.Forall₂ R) (furtherInto complaint p turns acc)
      (furtherInto complaint q turns' acc') := by
  induction hturns generalizing acc acc' with
  | nil => exact alike_pure (List.rel_reverse hacc)
  | cons _ _ ih =>
    refine .accept (alike_pure (List.rel_reverse hacc)) fun _ _ _ => ?_
    have hnext := hp.bind fun _ _ h => ih (.cons h hacc)
    dsimp only
    rw [hacc.length_eq]
    split
    · exact alike_peek.bind fun _ _ ht => (alike_complain ht).bindEq fun _ => hnext
    · exact hnext

theorem alike_commaList (hp : Alike P R p q) :
    Alike P (List.Forall₂ R) (commaList complaint p) (commaList complaint q) := by
  refine alike_sees.bindEq fun _ => ?_
  split
  · exact alike_pure .nil
  · exact hp.bind fun _ _ h => alike_remaining.bind fun _ _ hturns =>
      alike_furtherInto hp hturns (.cons h .nil)

end

end Rule

namespace Grammar

open Rule

/-! ## Expressions -/

section

variable {p q : Rule Expr} (h : Alike P (ExprMatches P) p q)

theorem matches_join (hl : ExprMatches P l l') (ht : P.rel t t')
    (hr : ExprMatches P r r') : ExprMatches P (join l t r) (join l' t' r') := by
  simp only [join, P.kind ht]
  split
  · exact .logical hl ht hr
  · exact .binary hl ht hr

include h

theorem alike_chain : Alike P (ExprMatches P) (chain kinds p) (chain kinds q) := by
  have hloop {turns turns' : List Token} (hturns : List.Forall₂ P.rel turns turns')
      {l l' : Expr} (hl : ExprMatches P l l') :
      Alike P (ExprMatches P) (chainInto kinds p turns l) (chainInto kinds q turns' l') := by
    induction hturns generalizing l l' with
    | nil => exact alike_pure hl
    | cons _ _ ih =>
      exact .accept (alike_pure hl) fun _ _ ht => h.bind fun _ _ hr => ih (matches_join hl ht hr)
  exact h.bind fun _ _ hl => alike_remaining.bind fun _ _ hturns => hloop hturns hl

theorem alike_binary (ls : List (List TokenKind)) :
    Alike P (ExprMatches P) (binary p ls) (binary q ls) := by
  induction ls with
  | nil => exact h
  | cons kinds ls ih => exact alike_chain ih

omit h in
theorem rel_assignment? (ht : ExprMatches P t t') (hv : ExprMatches P v v') :
    Option.Rel (ExprMatches P) (assignment? t v) (assignment? t' v') := by
  cases ht with
  | «variable» hr => exact .some (.assign hr hv)
  | get ho hn => exact .some (.set ho hn hv)
  | _ => exact .none

theorem alike_assignTo (ht : ExprMatches P t t') :
    Alike P (ExprMatches P) (assignTo p t) (assignTo q t') := by
  refine .accept (alike_pure ht) fun _ _ hequals => h.bind fun v v' hv => ?_
  have hrel := rel_assignment? ht hv
  generalize assignment? t v = a at hrel
  generalize assignment? t' v' = a' at hrel
  cases hrel with
  | none => exact (alike_complain hequals).bindEq fun _ => alike_pure ht
  | some he => exact alike_pure he

omit h in
theorem matches_unresolved (ht : P.rel t t') :
    Reference.Matches P ⟨t, none⟩ ⟨t', none⟩ := ⟨ht, rfl⟩

theorem alike_primary (hP : P.KeepsContents) :
    Alike P (ExprMatches P) (primary p) (primary q) := by
  refine .accept alike_reject fun t t' ht => ?_
  have hliteral : t'.literal = t.literal := congrArg (·.2.2) (hP ht)
  dsimp only
  rw [P.kind ht]
  split
  · exact alike_pure .literal
  · exact alike_pure .literal
  · exact alike_pure .literal
  · exact .expect fun _ _ _ => .expect fun _ _ hm => alike_pure (.super (matches_unresolved ht) hm)
  · exact alike_pure (.this (matches_unresolved ht))
  · exact alike_pure (.variable (matches_unresolved ht))
  · exact h.bind fun _ _ he => .expect fun _ _ _ => alike_pure (.grouping he)
  · rw [hliteral]
    exact alike_pure .literal

theorem alike_call (hP : P.KeepsContents) : Alike P (ExprMatches P) (call p) (call q) := by
  have hloop {turns turns' : List Token} (hturns : List.Forall₂ P.rel turns turns')
      {e e' : Expr} (he : ExprMatches P e e') :
      Alike P (ExprMatches P) (suffixesInto p turns e) (suffixesInto q turns' e') := by
    induction hturns generalizing e e' with
    | nil => exact alike_pure he
    | cons _ _ ih =>
      refine .accept (alike_pure he) fun t t' ht => ?_
      dsimp only
      rw [P.kind ht]
      split
      · exact (alike_commaList h).bind fun _ _ has => .expect fun _ _ hparen =>
          ih (.call he hparen (matches_exprs has))
      · exact .expect fun _ _ hname => ih (.get he hname)
  exact (alike_primary h hP).bind fun _ _ he => alike_remaining.bind fun _ _ hturns =>
    hloop hturns he

end

theorem alike_expression_unary (hP : P.KeepsContents) (room : Nat) :
    Alike P (ExprMatches P) (expression room) (expression room) ∧
      Alike P (ExprMatches P) (unary room) (unary room) := by
  induction room with
  | zero => exact ⟨alike_tooDeep, alike_tooDeep⟩
  | succ room ih =>
    obtain ⟨hexpression, hunary⟩ := ih
    refine ⟨(alike_binary hunary levels).bind fun _ _ ht => alike_assignTo hexpression ht, ?_⟩
    exact .accept (alike_call hexpression hP) fun _ _ ht => hunary.bind fun _ _ he =>
      alike_pure (.unary ht he)

/-! ## Statements -/

section

variable {expr expr' : Rule Expr} {decl decl' stmt stmt' : Rule Stmt}
  (hexpr : Alike P (ExprMatches P) expr expr')
  (hdecl : Alike P (StmtMatches P) decl decl')
  (hstmt : Alike P (StmtMatches P) stmt stmt')

section

include hexpr

theorem alike_optional :
    Alike P (Option.Rel (ExprMatches P)) (optional kind expr) (optional kind expr') := by
  refine alike_sees.bindEq fun _ => ?_
  split
  · exact alike_pure .none
  · exact hexpr.bind fun _ _ he => alike_pure (.some he)

theorem alike_varDecl : Alike P (StmtMatches P) (varDecl expr) (varDecl expr') := by
  refine .expect fun _ _ hn => .accept ?_ fun _ _ _ => hexpr.bind fun _ _ he => ?_
  · exact .expect fun _ _ _ => alike_pure (.varNil hn)
  · exact .expect fun _ _ _ => alike_pure (.varValue hn he)

theorem alike_expressionStatement :
    Alike P (StmtMatches P) (expressionStatement expr) (expressionStatement expr') :=
  hexpr.bind fun _ _ he => .expect fun _ _ _ => alike_pure (.expression he)

theorem alike_printStatement :
    Alike P (StmtMatches P) (printStatement expr) (printStatement expr') :=
  hexpr.bind fun _ _ he => .expect fun _ _ _ => alike_pure (.print he)

theorem alike_returnStatement (ht : P.rel t t') :
    Alike P (StmtMatches P) (returnStatement expr t) (returnStatement expr' t') :=
  (alike_optional hexpr).bind fun _ _ he => .expect fun _ _ _ =>
    alike_pure (matches_returning ht he)

include hstmt

theorem alike_whileLoop :
    Alike P (StmtMatches P) (whileLoop expr stmt) (whileLoop expr' stmt') :=
  .expect fun _ _ _ => hexpr.bind fun _ _ hc => .expect fun _ _ _ => hstmt.bind fun _ _ hs =>
    alike_pure (.whileLoop hc hs)

theorem alike_conditional :
    Alike P (StmtMatches P) (conditional expr stmt) (conditional expr' stmt') := by
  refine .expect fun _ _ _ => hexpr.bind fun _ _ hc => .expect fun _ _ _ => ?_
  refine hstmt.bind fun _ _ hs => ?_
  exact .accept (alike_pure (.ifElse hc hs .noStmt)) fun _ _ _ => hstmt.bind fun _ _ ht =>
    alike_pure (.ifElse hc hs ht)

theorem alike_forLoop :
    Alike P (StmtMatches P) (forLoop expr stmt) (forLoop expr' stmt') := by
  have hrest {i i' : Option Stmt} (hi : Option.Rel (StmtMatches P) i i') :
      Alike P (StmtMatches P)
        (do
          let condition ← optional .semicolon expr
          let _ ← expect .semicolon "Expect ';' after loop condition."
          let increment ← optional .rightParen expr
          let _ ← expect .rightParen "Expect ')' after for clauses."
          let body ← stmt
          pure (desugarFor i condition increment body))
        (do
          let condition ← optional .semicolon expr'
          let _ ← expect .semicolon "Expect ';' after loop condition."
          let increment ← optional .rightParen expr'
          let _ ← expect .rightParen "Expect ')' after for clauses."
          let body ← stmt'
          pure (desugarFor i' condition increment body)) := by
    refine (alike_optional hexpr).bind fun c c' hc => .expect fun _ _ _ =>
      (alike_optional hexpr).bind fun e e' he => .expect fun _ _ _ => hstmt.bind fun s s' hs => ?_
    rw [desugarFor_eq, desugarFor_eq]
    exact alike_pure
      (matches_behind hi (.whileLoop (matches_condition hc) (matches_followed he hs)))
  refine .expect fun _ _ _ => .accept ?_ fun t t' ht => ?_
  · exact (alike_expressionStatement hexpr).bind fun _ _ hs => hrest (.some hs)
  · dsimp only
    rw [P.kind ht]
    split
    · exact hrest .none
    · exact (alike_varDecl hexpr).bind fun _ _ hs => hrest (.some hs)

end

section

include hdecl

theorem alike_block :
    Alike P (List.Forall₂ (StmtMatches P)) (block decl) (block decl') :=
  (alike_piecesUntil hdecl).bind fun _ _ hss => .expect fun _ _ _ => alike_pure hss

theorem alike_function :
    Alike P (FunctionMatches P) (function kind decl) (function kind decl') :=
  .expect fun _ _ hn => .expect fun _ _ _ => (alike_commaList alike_expect).bind fun _ _ hps =>
    .expect fun _ _ _ => .expect fun _ _ _ => (alike_block hdecl).bind fun _ _ hss =>
      alike_pure (.body hn hps (matches_stmts hss))

theorem alike_classDecl : Alike P (StmtMatches P) (classDecl decl) (classDecl decl') := by
  refine .expect fun name name' hn => ?_
  have hrest {s s' : Option Reference} (hs : Option.Rel (Reference.Matches P) s s') :
      Alike P (StmtMatches P)
        (do
          let _ ← expect .leftBrace "Expect '\x7b' before class body."
          let methods ← piecesUntil [.rightBrace] (function "method" decl)
          let _ ← expect .rightBrace "Expect '\x7d' after class body."
          pure (Stmt.classDecl name s methods))
        (do
          let _ ← expect .leftBrace "Expect '\x7b' before class body."
          let methods ← piecesUntil [.rightBrace] (function "method" decl')
          let _ ← expect .rightBrace "Expect '\x7d' after class body."
          pure (Stmt.classDecl name' s' methods)) :=
    .expect fun _ _ _ => (alike_piecesUntil (alike_function hdecl)).bind fun _ _ hfs =>
      .expect fun _ _ _ => alike_pure (.classDecl_of_forall₂ hn hs hfs)
  exact .accept (hrest .none) fun _ _ _ => .expect fun _ _ ht =>
    hrest (.some (matches_unresolved ht))

end

/-! ## Declarations -/

theorem alike_skipToBoundary {ts ts' : List Token} (h : List.Forall₂ P.rel ts ts') :
    List.Forall₂ P.rel (skipToBoundary ts) (skipToBoundary ts') := by
  have hsettle {t t' : Token} (ht : P.rel t t') {ts ts' : List Token}
      (h : List.Forall₂ P.rel ts ts') :
      List.Forall₂ P.rel (settle t ts) (settle t' ts') := by
    induction h generalizing t t' with
    | nil => exact .nil
    | cons hu hts ih =>
      simp only [settle, P.kind ht, P.kind hu]
      split
      · exact .cons hu hts
      · exact ih hu
  cases h with
  | nil => exact .nil
  | cons ht hts => exact hsettle ht hts

theorem alike_recovering {p q : Rule Stmt} (h : Alike P (StmtMatches P) p q) :
    Alike P (StmtMatches P) (recovering p) (recovering q) := by
  intro stop stop' c c' hstop hc
  have ho := h hstop hc
  unfold recovering
  generalize p stop c = o at ho
  generalize q stop' c' = o' at ho
  cases ho with
  | read hs hc => exact .read hs hc
  | gaveUp hc => exact .read .noStmt ⟨alike_skipToBoundary hc.rest, hc.made⟩
  | tooDeep hm => exact .tooDeep hm

end

theorem alike_declaration_statement (hP : P.KeepsContents) (room : Nat) :
    Alike P (StmtMatches P) (declaration room) (declaration room) ∧
      Alike P (StmtMatches P) (statement room) (statement room) := by
  induction room with
  | zero => exact ⟨alike_tooDeep, alike_tooDeep⟩
  | succ room ih =>
    obtain ⟨hdecl, hstmt⟩ := ih
    have hexpr := (alike_expression_unary hP room).1
    constructor
    · refine alike_recovering (.accept hstmt fun t t' ht => ?_)
      dsimp only
      rw [P.kind ht]
      split
      · exact alike_classDecl hdecl
      · exact (alike_function hdecl).bind fun _ _ hf => alike_pure (.function hf)
      · exact alike_varDecl hexpr
    · refine .accept (alike_expressionStatement hexpr) fun t t' ht => ?_
      dsimp only
      rw [P.kind ht]
      split
      · exact alike_forLoop hexpr hstmt
      · exact alike_conditional hexpr hstmt
      · exact alike_printStatement hexpr
      · exact alike_returnStatement hexpr ht
      · exact alike_whileLoop hexpr hstmt
      · exact (alike_block hdecl).bind fun _ _ hss => alike_pure (.block (matches_stmts hss))

theorem alike_program (hP : P.KeepsContents) (room : Nat) :
    Alike P (List.Forall₂ (StmtMatches P)) (program room) (program room) :=
  alike_piecesUntil (alike_declaration_statement hP room).1

theorem alike_wholeExpression (hP : P.KeepsContents) (room : Nat) :
    Alike P (ExprMatches P) (wholeExpression room) (wholeExpression room) := by
  refine (alike_expression_unary hP room).1.bind fun _ _ he => alike_atEnd.bindEq fun b => ?_
  cases b with
  | true => exact alike_pure he
  | false => exact alike_reject

/-! ## Readings -/

/-- Readings of values that are related, with reports that say the same. -/
inductive Reading.Alike (R : α → β → Prop) : Reading α → Reading β → Prop where
  | finished : R a b → rs'.map Report.content = rs.map Report.content →
    Alike R (.finished a rs) (.finished b rs')
  | tooDeep : rs'.map Report.content = rs.map Report.content →
    Alike R (.tooDeep rs) (.tooDeep rs')

/-- Readings of values that are related, with reports at tokens that stand for one another. -/
inductive Reading.Matches (P : Pairing) (R : α → β → Prop) : Reading α → Reading β → Prop where
  | finished : R a b → List.Forall₂ (Report.Matches P) rs rs' →
    Matches P R (.finished a rs) (.finished b rs')
  | tooDeep : List.Forall₂ (Report.Matches P) rs rs' → Matches P R (.tooDeep rs) (.tooDeep rs')

theorem Reading.Matches.alike {R : α → β → Prop} {o : Reading α} {o' : Reading β}
    (h : o.Matches P R o') : o.Alike R o' := by
  cases h with
  | finished ha hr => exact .finished ha (map_content_of_matches hr)
  | tooDeep hr => exact .tooDeep (map_content_of_matches hr)

variable {ts ts' : List Token}

/-- Tokens that stand for one another are read alike, also where there is no token for the end. -/
theorem run_matches {R : α → α → Prop} {p : Rule α} (hp : Rule.Alike P R p p)
    (hend : (∀ t ∈ ts, t.kind ≠ .eof) → P.rel ⟨.eof, "", none, 1, 1⟩ ⟨.eof, "", none, 1, 1⟩)
    (h : List.Forall₂ P.rel ts ts') :
    Reading.Matches P (Option.Rel R) (run p ts) (run p ts') := by
  have hends : P.rel ((ts.find? (·.kind = .eof)).getD ⟨.eof, "", none, 1, 1⟩)
        ((ts'.find? (·.kind = .eof)).getD ⟨.eof, "", none, 1, 1⟩) ∧
      List.Forall₂ P.rel (ts.takeWhile (·.kind ≠ .eof)) (ts'.takeWhile (·.kind ≠ .eof)) := by
    induction h with
    | nil => exact ⟨hend nofun, .nil⟩
    | @cons t t' ts ts' ht hts ih =>
      by_cases hk : t.kind = .eof
      · simp [hk, P.kind ht, ht]
      · simpa [hk, P.kind ht, ht] using ih fun hnone => hend (List.forall_mem_cons.2 ⟨hk, hnone⟩)
  have hc : Cursor.Alike P ⟨ts.takeWhile (·.kind ≠ .eof), []⟩
      ⟨ts'.takeWhile (·.kind ≠ .eof), []⟩ := ⟨hends.2, .nil⟩
  have ho := hp hends.1 hc
  unfold run
  dsimp only
  generalize p _ _ = o at ho ⊢
  generalize p _ _ = o' at ho ⊢
  cases ho with
  | read ha hc => exact .finished (.some ha) (List.rel_reverse hc.made)
  | gaveUp hc => exact .finished .none (List.rel_reverse hc.made)
  | tooDeep hm => exact .tooDeep (List.rel_reverse hm)

/-- Tokens that stand for one another are read as programs that match. -/
theorem readProgram_matches (hP : P.KeepsContents)
    (hend : (∀ t ∈ ts, t.kind ≠ .eof) → P.rel ⟨.eof, "", none, 1, 1⟩ ⟨.eof, "", none, 1, 1⟩)
    (room : Nat) (h : List.Forall₂ P.rel ts ts') :
    Reading.Matches P (List.Forall₂ (StmtMatches P)) (readProgram room ts)
      (readProgram room ts') := by
  have ho := run_matches (alike_program hP room) hend h
  unfold readProgram
  generalize run _ ts = o at ho ⊢
  generalize run _ ts' = o' at ho ⊢
  cases ho with
  | finished ha hr =>
    cases ha with
    | none => exact .finished .nil hr
    | some hss => exact .finished hss hr
  | tooDeep hr => exact .tooDeep hr

theorem forall₂_content_iff :
    List.Forall₂ Pairing.content.rel ts ts' ↔ ts'.map Token.content = ts.map Token.content := by
  rw [eq_comm, ← List.forall₂_eq_eq_eq, List.forall₂_map_left_iff, List.forall₂_map_right_iff]
  exact ⟨fun h => h.imp fun _ _ => Eq.symm, fun h => h.imp fun _ _ => Eq.symm⟩

/-- Tokens with the same contents are read as programs that match, with reports that say the
same. -/
theorem readProgram_alike (room : Nat) (h : ts'.map Token.content = ts.map Token.content) :
    Reading.Alike (List.Forall₂ (StmtMatches .content)) (readProgram room ts)
      (readProgram room ts') :=
  (readProgram_matches (fun _ _ ht => ht) (fun _ => rfl) room (forall₂_content_iff.2 h)).alike

theorem readExpression_alike (room : Nat) (h : ts'.map Token.content = ts.map Token.content) :
    Reading.Alike (Option.Rel (ExprMatches .content)) (readExpression room ts)
      (readExpression room ts') :=
  (run_matches (alike_wholeExpression (fun _ _ ht => ht) room) (fun _ => rfl)
    (forall₂_content_iff.2 h)).alike

end Grammar

end LoxLang
