import LoxLang.Proofs.Parsing.Sound

/-!
# Reading goes forward

Whatever the tokens are and however a rule comes out, it leaves a part at the end of them, what it
has read is no shorter than what the rule is known to need, and it only adds reports on the text
(`Rule.Consumes`). An expression and a statement need a token at least; a declaration that gives up
skips one, so at every turn of the loop over declarations there are fewer tokens left
(`consumes_declaration_statement`).
-/

namespace LoxLang

/-- What is left is a part at the end of the tokens, shorter by so many at least when something was
read, and no report is gone. -/
def Outcome.Consumes (n : Nat) (c : Cursor) : Outcome α → Prop
  | .read _ next =>
    next.rest <:+ c.rest ∧ next.rest.length + n ≤ c.rest.length ∧ Adds c.made next.made
  | .gaveUp next => next.rest <:+ c.rest ∧ Adds c.made next.made
  | .tooDeep made => Adds c.made made

/-- What is consumed behind a place is consumed from an earlier one on. -/
theorem Outcome.Consumes.behind {o : Outcome α} {c mid : Cursor} (h : o.Consumes n mid)
    (hrest : mid.rest <:+ c.rest) (hlen : mid.rest.length + m ≤ c.rest.length)
    (hmade : Adds c.made mid.made) : o.Consumes (m + n) c := by
  cases o with
  | read b next =>
    obtain ⟨hsuffix, hshorter, hadds⟩ := h
    exact ⟨hsuffix.trans hrest, by omega, hmade.trans hadds⟩
  | gaveUp next => exact ⟨h.1.trans hrest, hmade.trans h.2⟩
  | tooDeep made => exact hmade.trans h

theorem Outcome.Consumes.mono {o : Outcome α} (h : o.Consumes n c) (hle : m ≤ n) :
    o.Consumes m c := by
  cases o with
  | read a next => exact ⟨h.1, by have := h.2.1; omega, h.2.2⟩
  | gaveUp => exact h
  | tooDeep => exact h

namespace Rule

/-- A rule that reads so many tokens at least. -/
def Consumes (n : Nat) (p : Rule α) : Prop := ∀ stop c, (p stop c).Consumes n c

section
variable {p : Rule α} {f : α → Rule β}

theorem Consumes.mono (h : Consumes n p) (hle : m ≤ n) : Consumes m p :=
  fun stop c => (h stop c).mono hle

theorem consumes_pure {a : α} : Consumes 0 (pure a) := fun _ _ =>
  ⟨List.suffix_rfl, Nat.le_refl _, .refl _⟩

theorem Consumes.bind (hp : Consumes m p) (hf : ∀ a, Consumes n (f a)) :
    Consumes (m + n) (p >>= f) := by
  intro stop c
  have hfirst := hp stop c
  change (Rule.bind p f stop c).Consumes (m + n) c
  unfold Rule.bind
  cases hr : p stop c with
  | read a mid =>
    rw [hr] at hfirst
    obtain ⟨hrest, hlen, hmade⟩ := hfirst
    exact (hf a stop mid).behind hrest hlen hmade
  | gaveUp next => rw [hr] at hfirst; exact hfirst
  | tooDeep => rw [hr] at hfirst; exact hfirst

/-- What the first of two rules reads, both read. -/
theorem Consumes.andThen (hp : Consumes n p) (hf : ∀ a, Consumes k (f a)) :
    Consumes n (p >>= f) := (hp.bind hf).mono (Nat.le_add_right n k)

/-- What the second of two rules reads, both read. -/
theorem Consumes.before (hp : Consumes k p) (hf : ∀ a, Consumes n (f a)) :
    Consumes n (p >>= f) := (hp.bind hf).mono (Nat.le_add_left n k)

theorem consumes_tooDeep : Consumes n (tooDeep : Rule α) := fun _ _ => .refl _

theorem consumes_reject : Consumes n (reject message : Rule α) := fun _ _ =>
  ⟨List.suffix_rfl, .one⟩

theorem consumes_complain : Consumes 0 (complain token message) := fun _ _ =>
  ⟨List.suffix_rfl, Nat.le_refl _, .one⟩

theorem consumes_peek : Consumes 0 peek := fun _ _ => ⟨List.suffix_rfl, Nat.le_refl _, .refl _⟩

theorem consumes_atEnd : Consumes 0 atEnd := fun _ _ => ⟨List.suffix_rfl, Nat.le_refl _, .refl _⟩

theorem consumes_remaining : Consumes 0 remaining := fun _ _ =>
  ⟨List.suffix_rfl, Nat.le_refl _, .refl _⟩

theorem consumes_sees : Consumes 0 (sees kinds) := by
  intro stop c
  unfold sees
  split <;> exact ⟨List.suffix_rfl, Nat.le_refl _, .refl _⟩

/-- A rule that reads a token of some kinds first, if there is one. -/
theorem Consumes.accept {f : Option Token → Rule β} (hnone : Consumes n (f none))
    (hsome : ∀ t, Consumes (n - 1) (f (some t))) : Consumes n (accept kinds >>= f) := by
  rintro stop ⟨rest, made⟩
  change (Rule.bind (Rule.accept kinds) f stop _).Consumes n _
  unfold Rule.bind Rule.accept
  cases rest with
  | nil => exact hnone stop ⟨[], made⟩
  | cons t rest =>
    dsimp only
    by_cases hk : kinds.contains t.kind
    · rw [if_pos hk]
      have hread : (f (some t) stop ⟨rest, made⟩).Consumes (1 + (n - 1)) ⟨t :: rest, made⟩ :=
        (hsome t stop ⟨rest, made⟩).behind (List.suffix_cons t rest) (Nat.le_refl _) (.refl _)
      exact hread.mono (by omega)
    · rw [if_neg hk]
      exact hnone stop ⟨t :: rest, made⟩

theorem consumes_expect : Consumes 1 (expect kind message) :=
  .accept consumes_reject fun _ => consumes_pure

theorem consumes_piecesInto (hp : Consumes 0 p) : Consumes 0 (piecesInto kinds p turns acc) := by
  induction turns generalizing acc with
  | nil => exact consumes_pure
  | cons _ turns ih =>
    refine consumes_atEnd.before fun _ => consumes_sees.before fun _ => ?_
    split
    · exact consumes_pure
    · exact hp.before fun _ => ih

theorem consumes_piecesUntil (hp : Consumes 0 p) : Consumes 0 (piecesUntil kinds p) :=
  consumes_remaining.before fun _ => consumes_piecesInto hp

theorem consumes_furtherInto (hp : Consumes 0 p) :
    Consumes 0 (furtherInto complaint p turns acc) := by
  induction turns generalizing acc with
  | nil => exact consumes_pure
  | cons _ turns ih =>
    have hnext : Consumes 0 (p >>= fun a => furtherInto complaint p turns (a :: acc)) :=
      hp.before fun _ => ih
    refine .accept consumes_pure fun _ => ?_
    dsimp only
    split
    · exact consumes_peek.before fun _ => consumes_complain.before fun _ => hnext
    · exact hnext

theorem consumes_commaList (hp : Consumes 0 p) : Consumes 0 (commaList complaint p) := by
  refine consumes_sees.before fun _ => ?_
  split
  · exact consumes_pure
  · exact hp.before fun _ => consumes_remaining.before fun _ => consumes_furtherInto hp

end

end Rule

namespace Grammar
open Rule

/-! ## Expressions -/

theorem consumes_chain {p : Rule Expr} (hp : Consumes n p) : Consumes n (chain kinds p) := by
  have hloop (turns : List Token) (left : Expr) : Consumes 0 (chainInto kinds p turns left) := by
    induction turns generalizing left with
    | nil => exact consumes_pure
    | cons _ turns ih =>
      refine .accept consumes_pure fun _ => ?_
      exact (hp.mono (Nat.zero_le n)).before fun _ => ih _
  exact hp.andThen fun _ => consumes_remaining.before fun _ => hloop _ _

theorem consumes_binary {p : Rule Expr} (hp : Consumes n p) (ls : List (List TokenKind)) :
    Consumes n (binary p ls) := by
  induction ls with
  | nil => exact hp
  | cons kinds ls ih => exact consumes_chain ih

theorem consumes_assignTo {p : Rule Expr} (hp : Consumes 0 p) (target : Expr) :
    Consumes 0 (assignTo p target) := by
  refine .accept consumes_pure fun _ => hp.before fun v => ?_
  split
  · exact consumes_pure
  · exact consumes_complain.before fun _ => consumes_pure

theorem consumes_primary {p : Rule Expr} (hp : Consumes 0 p) : Consumes 1 (primary p) := by
  refine .accept consumes_reject fun t => ?_
  dsimp only
  split
  · exact consumes_pure
  · exact consumes_pure
  · exact consumes_pure
  · exact consumes_expect.before fun _ => consumes_expect.before fun _ => consumes_pure
  · exact consumes_pure
  · exact consumes_pure
  · exact hp.before fun _ => consumes_expect.before fun _ => consumes_pure
  · exact consumes_pure

theorem consumes_call {p : Rule Expr} (hp : Consumes 0 p) : Consumes 1 (call p) := by
  have hloop (turns : List Token) (e : Expr) : Consumes 0 (suffixesInto p turns e) := by
    induction turns generalizing e with
    | nil => exact consumes_pure
    | cons _ turns ih =>
      refine .accept consumes_pure fun t => ?_
      dsimp only
      split
      · exact (consumes_commaList hp).before fun _ => consumes_expect.before fun _ => ih _
      · exact consumes_expect.before fun _ => ih _
  exact (consumes_primary hp).andThen fun _ => consumes_remaining.before fun _ => hloop _ _

theorem consumes_expression_unary (room : Nat) :
    Consumes 1 (expression room) ∧ Consumes 1 (unary room) := by
  induction room with
  | zero => exact ⟨consumes_tooDeep, consumes_tooDeep⟩
  | succ room ih =>
    have hexpr := ih.1.mono (Nat.zero_le 1)
    constructor
    · exact (consumes_binary ih.2 levels).andThen fun _ => consumes_assignTo hexpr _
    · exact .accept (consumes_call hexpr) fun _ => ih.2.before fun _ => consumes_pure

theorem consumes_expression (room : Nat) : Consumes 1 (expression room) :=
  (consumes_expression_unary room).1

/-! ## Statements -/

theorem settle_suffix (previous : Token) (ts : List Token) : settle previous ts <:+ ts := by
  induction ts generalizing previous with
  | nil => exact List.suffix_rfl
  | cons t ts ih =>
    unfold settle
    split
    · exact List.suffix_rfl
    · exact (ih t).trans (List.suffix_cons t ts)

/-- A token is skipped after a rule that gives up, if there is one. -/
theorem skipToBoundary_suffix (ts : List Token) : skipToBoundary ts <:+ ts.tail := by
  cases ts with
  | nil => exact List.suffix_rfl
  | cons t ts => exact settle_suffix t ts

section
variable {expr : Rule Expr} {decl stmt : Rule Stmt} (hexpr : Consumes 1 expr)
  (hdecl : Consumes 0 decl) (hstmt : Consumes 1 stmt)

include hexpr

theorem consumes_optional : Consumes 0 (optional kind expr) := by
  refine consumes_sees.before fun _ => ?_
  split
  · exact consumes_pure
  · exact hexpr.before fun _ => consumes_pure

theorem consumes_expressionStatement : Consumes 1 (expressionStatement expr) :=
  hexpr.andThen fun _ => consumes_expect.andThen fun _ => consumes_pure

theorem consumes_varDecl : Consumes 1 (varDecl expr) := by
  refine consumes_expect.andThen (k := 0) fun name => ?_
  have hrest (e : Option Expr) : Consumes 0 (do
      let _ ← expect .semicolon "Expect ';' after variable declaration."
      pure (Stmt.varDecl name e)) := consumes_expect.before fun _ => consumes_pure
  exact .accept (hrest none) fun _ => hexpr.before fun e => hrest (some e)

theorem consumes_printStatement : Consumes 1 (printStatement expr) :=
  hexpr.andThen fun _ => consumes_expect.andThen fun _ => consumes_pure

theorem consumes_returnStatement (keyword : Token) : Consumes 1 (returnStatement expr keyword) :=
  (consumes_optional hexpr).before fun _ => consumes_expect.andThen fun _ => consumes_pure

include hstmt

theorem consumes_whileLoop : Consumes 1 (whileLoop expr stmt) :=
  consumes_expect.andThen fun _ => hexpr.andThen fun _ => consumes_expect.andThen fun _ =>
    hstmt.andThen fun _ => consumes_pure

theorem consumes_conditional : Consumes 1 (conditional expr stmt) := by
  refine consumes_expect.andThen fun _ => hexpr.andThen fun _ => consumes_expect.andThen fun _ =>
    hstmt.andThen (k := 0) fun _ => ?_
  exact .accept consumes_pure fun _ => hstmt.before fun _ => consumes_pure

theorem consumes_forLoop : Consumes 1 (forLoop expr stmt) := by
  refine consumes_expect.andThen (k := 0) fun _ => ?_
  have hrest (i : Option Stmt) : Consumes 0 (do
      let condition ← optional .semicolon expr
      let _ ← expect .semicolon "Expect ';' after loop condition."
      let increment ← optional .rightParen expr
      let _ ← expect .rightParen "Expect ')' after for clauses."
      let body ← stmt
      pure (desugarFor i condition increment body)) :=
    (consumes_optional hexpr).before fun _ => consumes_expect.before fun _ =>
      (consumes_optional hexpr).before fun _ => consumes_expect.before fun _ =>
      hstmt.before fun _ => consumes_pure
  refine .accept ((consumes_expressionStatement hexpr).before fun s => hrest (some s)) fun t => ?_
  dsimp only
  split
  · exact hrest none
  · exact (consumes_varDecl hexpr).before fun s => hrest (some s)

omit hexpr hstmt
include hdecl

theorem consumes_block : Consumes 1 (block decl) :=
  (consumes_piecesUntil hdecl).before fun _ => consumes_expect.andThen fun _ => consumes_pure

theorem consumes_function : Consumes 1 (function kind decl) :=
  consumes_expect.andThen fun _ => consumes_expect.before fun _ =>
    (consumes_commaList (consumes_expect.mono (Nat.zero_le 1))).before fun _ =>
    consumes_expect.before fun _ => consumes_expect.before fun _ =>
    (consumes_block hdecl).before fun _ => consumes_pure

theorem consumes_classDecl : Consumes 1 (classDecl decl) := by
  refine consumes_expect.andThen (k := 0) fun name => ?_
  have hrest (superclass : Option Reference) : Consumes 0 (do
      let _ ← expect .leftBrace "Expect '\x7b' before class body."
      let methods ← piecesUntil [.rightBrace] (function "method" decl)
      let _ ← expect .rightBrace "Expect '\x7d' after class body."
      pure (Stmt.classDecl name superclass methods)) :=
    consumes_expect.before fun _ =>
      (consumes_piecesUntil ((consumes_function hdecl).mono (Nat.zero_le 1))).before fun _ =>
      consumes_expect.before fun _ => consumes_pure
  exact .accept (hrest none) fun _ => consumes_expect.before fun t => hrest (some ⟨t, none⟩)

end

/-- A declaration that gives up is behind the tokens that it skips. -/
theorem consumes_recovering {p : Rule Stmt} (hp : Consumes 1 p) (stop : Token) (c : Cursor) :
    (recovering p stop c).Consumes (min 1 c.rest.length) c := by
  have h := hp stop c
  unfold recovering
  cases hr : p stop c with
  | read s next =>
    rw [hr] at h
    exact Outcome.Consumes.mono (o := .read s next) h (Nat.min_le_left _ _)
  | gaveUp next =>
    rw [hr] at h
    have htail := skipToBoundary_suffix next.rest
    refine ⟨htail.trans ((List.tail_suffix _).trans h.1), ?_, h.2⟩
    have hskip := htail.length_le
    have hleft := h.1.length_le
    simp only [List.length_tail] at hskip ⊢
    omega
  | tooDeep => rw [hr] at h; exact h

theorem consumes_declaration_statement (room : Nat) :
    (∀ stop c, (declaration room stop c).Consumes (min 1 c.rest.length) c) ∧
      Consumes 1 (statement room) := by
  induction room with
  | zero => exact ⟨fun _ _ => .refl _, consumes_tooDeep⟩
  | succ room ih =>
    have hdecl : Consumes 0 (declaration room) := fun stop c => (ih.1 stop c).mono (Nat.zero_le _)
    have hstmt := ih.2
    have hexpr := consumes_expression room
    constructor
    · refine consumes_recovering (.accept hstmt fun t => ?_)
      dsimp only
      split
      · exact (consumes_classDecl hdecl).mono (Nat.zero_le 1)
      · exact (consumes_function hdecl).before fun _ => consumes_pure
      · exact (consumes_varDecl hexpr).mono (Nat.zero_le 1)
    · refine .accept (consumes_expressionStatement hexpr) fun t => ?_
      dsimp only
      split
      · exact (consumes_forLoop hexpr hstmt).mono (Nat.zero_le 1)
      · exact (consumes_conditional hexpr hstmt).mono (Nat.zero_le 1)
      · exact (consumes_printStatement hexpr).mono (Nat.zero_le 1)
      · exact (consumes_returnStatement hexpr t).mono (Nat.zero_le 1)
      · exact (consumes_whileLoop hexpr hstmt).mono (Nat.zero_le 1)
      · exact (consumes_block hdecl).before fun _ => consumes_pure

/-! ## Programs -/

theorem consumes_program (room : Nat) : Consumes 0 (program room) :=
  consumes_piecesUntil fun stop c =>
    ((consumes_declaration_statement room).1 stop c).mono (Nat.zero_le _)

end Grammar

end LoxLang
