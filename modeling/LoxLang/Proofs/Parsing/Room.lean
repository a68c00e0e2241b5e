import LoxLang.Proofs.Parsing.Progress

/-!
# Room for nesting

With less room a rule reads what it reads with more, or it stops because the text is nested too
deeply (`Rule.Below`). Every nesting takes a token, so a text of so many tokens is never nested too
deeply for twice as much room and a little more (`Rule.Shallow`, `shallow_program`).
-/

namespace LoxLang

namespace Rule

/-- A rule comes out as another one does, or it stops. -/
def Below (p q : Rule α) : Prop :=
  ∀ stop c, (∃ made, p stop c = .tooDeep made) ∨ p stop c = q stop c

/-- A rule does not stop at so few tokens. -/
def Shallow (n : Nat) (p : Rule α) : Prop :=
  ∀ stop c, c.rest.length ≤ n → ∀ made, p stop c ≠ .tooDeep made

section

variable {p q : Rule α} {f g : α → Rule β}

/-! ## Less room -/

theorem Below.refl (p : Rule α) : Below p p := fun _ _ => .inr rfl

theorem Below.trans (h : Below p q) (h' : Below q r) : Below p r := fun stop c =>
  (h stop c).elim .inl fun e => (h' stop c).imp (fun ⟨made, hr⟩ => ⟨made, e.trans hr⟩) e.trans

theorem below_tooDeep : Below tooDeep q := fun _ _ => .inl ⟨_, rfl⟩

theorem Below.bind (hp : Below p q) (hf : ∀ a, Below (f a) (g a)) :
    Below (p >>= f) (q >>= g) := by
  intro stop c
  change (∃ made, Rule.bind p f stop c = .tooDeep made) ∨
    Rule.bind p f stop c = Rule.bind q g stop c
  unfold Rule.bind
  rcases hp stop c with ⟨made, hdeep⟩ | hsame
  · exact .inl ⟨made, by rw [hdeep]⟩
  · rw [hsame]
    cases q stop c with
    | read a next => exact hf a stop next
    | gaveUp | tooDeep => exact .inr rfl

/-- Rules behind one that is the same. -/
theorem Below.behind (hf : ∀ a, Below (f a) (g a)) : Below (p >>= f) (p >>= g) :=
  (Below.refl p).bind hf

/-- Rules in front of one that is the same. -/
theorem Below.before (hp : Below p q) : Below (p >>= f) (q >>= f) := hp.bind fun _ => .refl _

theorem below_piecesInto (h : Below p q) :
    Below (piecesInto kinds p turns acc) (piecesInto kinds q turns acc) := by
  induction turns generalizing acc with
  | nil => exact .refl _
  | cons _ turns ih =>
    refine .behind fun _ => .behind fun _ => ?_
    split
    · exact .refl _
    · exact h.bind fun _ => ih

theorem below_piecesUntil (h : Below p q) : Below (piecesUntil kinds p) (piecesUntil kinds q) :=
  .behind fun _ => below_piecesInto h

theorem below_furtherInto (h : Below p q) :
    Below (furtherInto complaint p turns acc) (furtherInto complaint q turns acc) := by
  induction turns generalizing acc with
  | nil => exact .refl _
  | cons _ turns ih =>
    refine .behind fun t => ?_
    cases t with
    | none => exact .refl _
    | some t =>
      dsimp only
      split
      · exact .behind fun _ => .behind fun _ => h.bind fun _ => ih
      · exact h.bind fun _ => ih

theorem below_commaList (h : Below p q) :
    Below (commaList complaint p) (commaList complaint q) := by
  refine .behind fun _ => ?_
  split
  · exact .refl _
  · exact h.bind fun _ => .behind fun _ => below_furtherInto h

/-! ## Room enough -/

theorem Shallow.mono (h : Shallow n p) (hle : m ≤ n) : Shallow m p :=
  fun stop c hc => h stop c (Nat.le_trans hc hle)

theorem shallow_pure {a : α} : Shallow n (pure a) := nofun

theorem shallow_reject : Shallow n (reject message : Rule α) := nofun

theorem shallow_complain : Shallow n (complain token message) := nofun

theorem shallow_peek : Shallow n peek := nofun

theorem shallow_atEnd : Shallow n atEnd := nofun

theorem shallow_remaining : Shallow n remaining := nofun

theorem shallow_sees : Shallow n (sees kinds) := by
  intro stop c _ made
  unfold sees
  split <;> nofun

theorem Shallow.bind (hp : Shallow n p) (hc : Consumes k p) (hf : ∀ a, Shallow n (f a)) :
    Shallow n (p >>= f) := by
  intro stop c hlen made
  have hfirst := hp stop c hlen
  have hleft := hc stop c
  change Rule.bind p f stop c ≠ .tooDeep made
  unfold Rule.bind
  cases hr : p stop c with
  | read a next =>
    rw [hr] at hleft
    exact hf a stop next (by have := hleft.2.1; omega) made
  | gaveUp => nofun
  | tooDeep made => exact absurd hr (hfirst made)

/-- Behind a token that is read there are fewer. -/
theorem Shallow.accept {f : Option Token → Rule β} (hnone : Shallow n (f none))
    (hsome : ∀ m < n, ∀ t, Shallow m (f (some t))) : Shallow n (accept kinds >>= f) := by
  rintro stop ⟨rest, made⟩ hlen made'
  change Rule.bind (Rule.accept kinds) f stop _ ≠ .tooDeep made'
  unfold Rule.bind Rule.accept
  cases rest with
  | nil => exact hnone stop ⟨[], made⟩ hlen made'
  | cons t rest =>
    dsimp only
    by_cases hk : kinds.contains t.kind
    · rw [if_pos hk]
      exact hsome rest.length hlen t stop ⟨rest, made⟩ (Nat.le_refl _) made'
    · rw [if_neg hk]
      exact hnone stop ⟨t :: rest, made⟩ hlen made'

theorem shallow_expect : Shallow n (expect kind message) :=
  .accept shallow_reject fun _ _ _ => shallow_pure

theorem Shallow.expecting {f : Token → Rule β} (hf : ∀ t, Shallow n (f t)) :
    Shallow n (expect kind message >>= f) :=
  shallow_expect.bind consumes_expect hf

theorem shallow_piecesInto (hp : Shallow n p) (hc : Consumes 0 p) :
    Shallow n (piecesInto kinds p turns acc) := by
  induction turns generalizing acc with
  | nil => exact shallow_pure
  | cons _ turns ih =>
    refine shallow_atEnd.bind consumes_atEnd fun _ => shallow_sees.bind consumes_sees fun _ => ?_
    split
    · exact shallow_pure
    · exact hp.bind hc fun _ => ih

theorem shallow_piecesUntil (hp : Shallow n p) (hc : Consumes 0 p) :
    Shallow n (piecesUntil kinds p) :=
  shallow_remaining.bind consumes_remaining fun _ => shallow_piecesInto hp hc

theorem shallow_furtherInto (hp : Shallow n p) (hc : Consumes 0 p) :
    Shallow n (furtherInto complaint p turns acc) := by
  induction turns generalizing acc with
  | nil => exact shallow_pure
  | cons _ turns ih =>
    have hnext : Shallow n (p >>= fun a => furtherInto complaint p turns (a :: acc)) :=
      hp.bind hc fun _ => ih
    refine .accept shallow_pure fun m hm _ => ?_
    dsimp only
    split
    · refine shallow_peek.bind consumes_peek fun _ => ?_
      exact shallow_complain.bind consumes_complain fun _ => hnext.mono (Nat.le_of_lt hm)
    · exact hnext.mono (Nat.le_of_lt hm)

theorem shallow_commaList (hp : Shallow n p) (hc : Consumes 0 p) :
    Shallow n (commaList complaint p) := by
  refine shallow_sees.bind consumes_sees fun _ => ?_
  split
  · exact shallow_pure
  · exact hp.bind hc fun _ => shallow_remaining.bind consumes_remaining fun _ =>
      shallow_furtherInto hp hc

end

end Rule

namespace Grammar
open Rule

/-! ## Less room for expressions -/

section

variable {p q : Rule Expr} (h : Below p q)
include h

theorem below_chain : Below (chain kinds p) (chain kinds q) := by
  have hloop (turns : List Token) (left : Expr) :
      Below (chainInto kinds p turns left) (chainInto kinds q turns left) := by
    induction turns generalizing left with
    | nil => exact .refl _
    | cons _ turns ih =>
      refine .behind fun t => ?_
      cases t with
      | none => exact .refl _
      | some t => exact h.bind fun _ => ih _
  exact h.bind fun _ => .behind fun _ => hloop _ _

theorem below_binary (ls : List (List TokenKind)) : Below (binary p ls) (binary q ls) := by
  induction ls with
  | nil => exact h
  | cons kinds ls ih => exact below_chain ih

theorem below_assignTo (target : Expr) : Below (assignTo p target) (assignTo q target) := by
  refine .behind fun t => ?_
  cases t with
  | none => exact .refl _
  | some t => exact h.before

theorem below_primary : Below (primary p) (primary q) := by
  refine .behind fun t => ?_
  cases t with
  | none => exact .refl _
  | some t =>
    dsimp only
    split
    all_goals first | exact .refl _ | exact h.before

theorem below_call : Below (call p) (call q) := by
  have hloop (turns : List Token) (e : Expr) :
      Below (suffixesInto p turns e) (suffixesInto q turns e) := by
    induction turns generalizing e with
    | nil => exact .refl _
    | cons _ turns ih =>
      refine .behind fun t => ?_
      cases t with
      | none => exact .refl _
      | some t =>
        dsimp only
        split
        · exact (below_commaList h).bind fun _ => .behind fun _ => ih _
        · exact .behind fun _ => ih _
  exact (below_primary h).bind fun _ => .behind fun _ => hloop _ _

end

theorem below_expression_unary (room : Nat) :
    Below (expression room) (expression (room + 1)) ∧ Below (unary room) (unary (room + 1)) := by
  induction room with
  | zero => exact ⟨below_tooDeep, below_tooDeep⟩
  | succ room ih =>
    constructor
    · exact (below_binary ih.2 levels).bind fun _ => below_assignTo ih.1 _
    · refine .behind fun t => ?_
      cases t with
      | none => exact below_call ih.1
      | some t => exact ih.2.before

/-! ## Less room for statements -/

section

variable {expr expr' : Rule Expr} {decl decl' stmt stmt' : Rule Stmt} (hexpr : Below expr expr')
  (hdecl : Below decl decl') (hstmt : Below stmt stmt')

include hexpr

theorem below_optional : Below (optional kind expr) (optional kind expr') := by
  refine .behind fun _ => ?_
  split
  · exact .refl _
  · exact hexpr.before

theorem below_varDecl : Below (varDecl expr) (varDecl expr') := by
  refine .behind fun _ => .behind fun t => ?_
  cases t with
  | none => exact .refl _
  | some t => exact hexpr.before

include hstmt

theorem below_whileLoop : Below (whileLoop expr stmt) (whileLoop expr' stmt') :=
  .behind fun _ => hexpr.bind fun _ => .behind fun _ => hstmt.before

theorem below_conditional : Below (conditional expr stmt) (conditional expr' stmt') := by
  refine .behind fun _ => hexpr.bind fun _ => .behind fun _ => hstmt.bind fun _ => ?_
  refine .behind fun t => ?_
  cases t with
  | none => exact .refl _
  | some t => exact hstmt.before

theorem below_forLoop : Below (forLoop expr stmt) (forLoop expr' stmt') := by
  have hrest (i : Option Stmt) : Below
      (do
        let condition ← optional .semicolon expr
        let _ ← expect .semicolon "Expect ';' after loop condition."
        let increment ← optional .rightParen expr
        let _ ← expect .rightParen "Expect ')' after for clauses."
        let body ← stmt
        pure (desugarFor i condition increment body))
      (do
        let condition ← optional .semicolon expr'
        let _ ← expect .semicolon "Expect ';' after loop condition."
        let increment ← optional .rightParen expr'
        let _ ← expect .rightParen "Expect ')' after for clauses."
        let body ← stmt'
        pure (desugarFor i condition increment body)) :=
    (below_optional hexpr).bind fun _ => .behind fun _ => (below_optional hexpr).bind fun _ =>
      .behind fun _ => hstmt.before
  refine .behind fun _ => .behind fun t => ?_
  cases t with
  | none => exact (Below.before hexpr).bind fun s => hrest (some s)
  | some t =>
    dsimp only
    split
    · exact hrest none
    · exact (below_varDecl hexpr).bind fun s => hrest (some s)

omit hexpr hstmt
include hdecl

theorem below_block : Below (block decl) (block decl') := (below_piecesUntil hdecl).before

theorem below_function : Below (function kind decl) (function kind decl') :=
  .behind fun _ => .behind fun _ => .behind fun _ => .behind fun _ => .behind fun _ =>
    (below_block hdecl).before

theorem below_classDecl : Below (classDecl decl) (classDecl decl') := by
  have hrest (name : Token) (superclass : Option Reference) : Below
      (do
        let _ ← expect .leftBrace "Expect '\x7b' before class body."
        let methods ← piecesUntil [.rightBrace] (function "method" decl)
        let _ ← expect .rightBrace "Expect '\x7d' after class body."
        pure (Stmt.classDecl name superclass methods))
      (do
        let _ ← expect .leftBrace "Expect '\x7b' before class body."
        let methods ← piecesUntil [.rightBrace] (function "method" decl')
        let _ ← expect .rightBrace "Expect '\x7d' after class body."
        pure (Stmt.classDecl name superclass methods)) :=
    .behind fun _ => (below_piecesUntil (below_function hdecl)).before
  refine .behind fun name => .behind fun t => ?_
  cases t with
  | none => exact hrest name none
  | some t => exact .behind fun parent => hrest name (some ⟨parent, none⟩)

end

theorem below_recovering {p q : Rule Stmt} (h : Below p q) :
    Below (recovering p) (recovering q) := by
  intro stop c
  unfold recovering
  rcases h stop c with ⟨made, hdeep⟩ | hsame
  · exact .inl ⟨made, by rw [hdeep]⟩
  · exact .inr (by rw [hsame])

theorem below_declaration_statement (room : Nat) :
    Below (declaration room) (declaration (room + 1)) ∧
      Below (statement room) (statement (room + 1)) := by
  induction room with
  | zero => exact ⟨below_tooDeep, below_tooDeep⟩
  | succ room ih =>
    have hexpr := (below_expression_unary room).1
    constructor
    · refine below_recovering (.behind fun t => ?_)
      cases t with
      | none => exact ih.2
      | some t =>
        dsimp only
        split
        · exact below_classDecl ih.1
        · exact (below_function ih.1).before
        · exact below_varDecl hexpr
    · refine .behind fun t => ?_
      cases t with
      | none => exact hexpr.before
      | some t =>
        dsimp only
        split
        · exact below_forLoop hexpr ih.2
        · exact below_conditional hexpr ih.2
        · exact hexpr.before
        · exact (below_optional hexpr).before
        · exact below_whileLoop hexpr ih.2
        · exact (below_block ih.1).before

/-- What holds from one room to the next holds from each to every larger one. -/
theorem below_of_succ {p : Nat → Rule α} (h : ∀ room, Below (p room) (p (room + 1)))
    (hle : n ≤ m) : Below (p n) (p m) := by
  induction hle with
  | refl => exact .refl _
  | step _ ih => exact ih.trans (h _)

theorem below_program (hle : n ≤ m) : Below (program n) (program m) :=
  below_piecesUntil (below_of_succ (fun room => (below_declaration_statement room).1) hle)

/-! ## Room enough for expressions -/

section

variable {p : Rule Expr} (h : Shallow n p) (hc : Consumes 0 p)
include h hc

theorem shallow_chain : Shallow n (chain kinds p) := by
  have hloop (turns : List Token) (left : Expr) : Shallow n (chainInto kinds p turns left) := by
    induction turns generalizing left with
    | nil => exact shallow_pure
    | cons _ turns ih =>
      refine .accept shallow_pure fun m hm _ => ?_
      exact (h.bind hc fun _ => ih _).mono (Nat.le_of_lt hm)
  exact h.bind hc fun _ => shallow_remaining.bind consumes_remaining fun _ => hloop _ _

omit hc in
theorem shallow_binary (hc : Consumes 1 p) (ls : List (List TokenKind)) :
    Shallow n (binary p ls) := by
  induction ls with
  | nil => exact h
  | cons kinds ls ih => exact shallow_chain ih ((consumes_binary hc ls).mono (Nat.zero_le 1))

end

section

variable {p : Rule Expr} (h : ∀ m < n, Shallow m p) (hc : Consumes 0 p)
include h hc

theorem shallow_assignTo (target : Expr) : Shallow n (assignTo p target) := by
  refine .accept shallow_pure fun m hm _ => (h m hm).bind hc fun v => ?_
  split
  · exact shallow_pure
  · exact shallow_complain.bind consumes_complain fun _ => shallow_pure

theorem shallow_primary : Shallow n (primary p) := by
  refine .accept shallow_reject fun m hm t => ?_
  dsimp only
  split
  · exact shallow_pure
  · exact shallow_pure
  · exact shallow_pure
  · exact .expecting fun _ => .expecting fun _ => shallow_pure
  · exact shallow_pure
  · exact shallow_pure
  · exact (h m hm).bind hc fun _ => .expecting fun _ => shallow_pure
  · exact shallow_pure

theorem shallow_call : Shallow n (call p) := by
  have hloop (turns : List Token) (e : Expr) : Shallow n (suffixesInto p turns e) := by
    induction turns generalizing e with
    | nil => exact shallow_pure
    | cons _ turns ih =>
      refine .accept shallow_pure fun m hm t => ?_
      have hnext (e : Expr) := (ih e).mono (Nat.le_of_lt hm)
      dsimp only
      split
      · exact (shallow_commaList (h m hm) hc).bind (consumes_commaList hc) fun _ =>
          .expecting fun _ => hnext _
      · exact .expecting fun _ => hnext _
  exact (shallow_primary h hc).bind (consumes_primary hc) fun _ =>
    shallow_remaining.bind consumes_remaining fun _ => hloop _ _

end

theorem shallow_expression_unary (room : Nat) :
    (∀ n, 2 * n + 2 ≤ room → Shallow n (expression room)) ∧
      ∀ n, 2 * n + 1 ≤ room → Shallow n (unary room) := by
  induction room with
  | zero => exact ⟨fun n hn => absurd hn (by omega), fun n hn => absurd hn (by omega)⟩
  | succ room ih =>
    obtain ⟨hexpression, hunary⟩ := consumes_expression_unary room
    have hexpression := hexpression.mono (Nat.zero_le 1)
    constructor
    · intro n hn
      exact (shallow_binary (ih.2 n (by omega)) hunary levels).bind (consumes_binary hunary levels)
        fun e => shallow_assignTo (fun m hm => ih.1 m (by omega)) hexpression e
    · intro n hn
      refine .accept (shallow_call (fun m hm => ih.1 m (by omega)) hexpression) fun m hm _ => ?_
      exact (ih.2 m (by omega)).bind hunary fun _ => shallow_pure

/-! ## Room enough for statements -/

section

variable {expr : Rule Expr} {decl stmt : Rule Stmt} (hexpr : Shallow n expr)
  (hcexpr : Consumes 1 expr) (hdecl : Shallow n decl) (hcdecl : Consumes 0 decl)
  (hstmt : Shallow n stmt) (hcstmt : Consumes 1 stmt)

include hexpr hcexpr

theorem shallow_optional : Shallow n (optional kind expr) := by
  refine shallow_sees.bind consumes_sees fun _ => ?_
  split
  · exact shallow_pure
  · exact hexpr.bind hcexpr fun _ => shallow_pure

theorem shallow_expressionStatement : Shallow n (expressionStatement expr) :=
  hexpr.bind hcexpr fun _ => .expecting fun _ => shallow_pure

theorem shallow_varDecl : Shallow n (varDecl expr) := by
  refine .expecting fun name => ?_
  have hrest (e : Option Expr) : Shallow n (do
      let _ ← expect .semicolon "Expect ';' after variable declaration."
      pure (Stmt.varDecl name e)) := .expecting fun _ => shallow_pure
  exact .accept (hrest none) fun m hm _ =>
    (hexpr.bind hcexpr fun e => hrest (some e)).mono (Nat.le_of_lt hm)

theorem shallow_printStatement : Shallow n (printStatement expr) :=
  hexpr.bind hcexpr fun _ => .expecting fun _ => shallow_pure

theorem shallow_returnStatement (keyword : Token) : Shallow n (returnStatement expr keyword) :=
  (shallow_optional hexpr hcexpr).bind (consumes_optional hcexpr) fun _ =>
    .expecting fun _ => shallow_pure

include hstmt hcstmt

theorem shallow_whileLoop : Shallow n (whileLoop expr stmt) :=
  .expecting fun _ => hexpr.bind hcexpr fun _ => .expecting fun _ =>
    hstmt.bind hcstmt fun _ => shallow_pure

theorem shallow_conditional : Shallow n (conditional expr stmt) := by
  refine .expecting fun _ => hexpr.bind hcexpr fun _ => .expecting fun _ =>
    hstmt.bind hcstmt fun _ => ?_
  exact .accept shallow_pure fun m hm _ =>
    (hstmt.bind hcstmt fun _ => shallow_pure).mono (Nat.le_of_lt hm)

theorem shallow_forLoop : Shallow n (forLoop expr stmt) := by
  have hoptional (kind : TokenKind) : Shallow n (optional kind expr) :=
    shallow_optional hexpr hcexpr
  have hrest (i : Option Stmt) : Shallow n (do
      let condition ← optional .semicolon expr
      let _ ← expect .semicolon "Expect ';' after loop condition."
      let increment ← optional .rightParen expr
      let _ ← expect .rightParen "Expect ')' after for clauses."
      let body ← stmt
      pure (desugarFor i condition increment body)) :=
    (hoptional _).bind (consumes_optional hcexpr) fun _ => .expecting fun _ =>
      (hoptional _).bind (consumes_optional hcexpr) fun _ => .expecting fun _ =>
      hstmt.bind hcstmt fun _ => shallow_pure
  refine .expecting fun _ => .accept ?_ fun m hm t => Shallow.mono ?_ (Nat.le_of_lt hm)
  · exact (shallow_expressionStatement hexpr hcexpr).bind (consumes_expressionStatement hcexpr)
      fun s => hrest (some s)
  · dsimp only
    split
    · exact hrest none
    · exact (shallow_varDecl hexpr hcexpr).bind (consumes_varDecl hcexpr) fun s => hrest (some s)

omit hexpr hcexpr hstmt hcstmt
include hdecl hcdecl

theorem shallow_block : Shallow n (block decl) :=
  (shallow_piecesUntil hdecl hcdecl).bind (consumes_piecesUntil hcdecl) fun _ =>
    .expecting fun _ => shallow_pure

theorem shallow_function : Shallow n (function kind decl) :=
  .expecting fun _ => .expecting fun _ =>
    (shallow_commaList shallow_expect (consumes_expect.mono (Nat.zero_le 1))).bind
      (consumes_commaList (consumes_expect.mono (Nat.zero_le 1))) fun _ =>
    .expecting fun _ => .expecting fun _ =>
    (shallow_block hdecl hcdecl).bind (consumes_block hcdecl) fun _ => shallow_pure

theorem shallow_classDecl : Shallow n (classDecl decl) := by
  refine .expecting fun name => ?_
  have hmethods : Shallow n (piecesUntil [.rightBrace] (function "method" decl)) :=
    shallow_piecesUntil (shallow_function hdecl hcdecl)
      ((consumes_function hcdecl).mono (Nat.zero_le 1))
  have hrest (superclass : Option Reference) : Shallow n (do
      let _ ← expect .leftBrace "Expect '\x7b' before class body."
      let methods ← piecesUntil [.rightBrace] (function "method" decl)
      let _ ← expect .rightBrace "Expect '\x7d' after class body."
      pure (Stmt.classDecl name superclass methods)) :=
    .expecting fun _ => hmethods.bind
      (consumes_piecesUntil ((consumes_function hcdecl).mono (Nat.zero_le 1))) fun _ =>
      .expecting fun _ => shallow_pure
  exact .accept (hrest none) fun m hm _ =>
    (Shallow.expecting fun t => hrest (some ⟨t, none⟩)).mono (Nat.le_of_lt hm)

end

theorem shallow_recovering {p : Rule Stmt} (hp : Shallow n p) : Shallow n (recovering p) := by
  intro stop c hlen made
  have h := hp stop c hlen
  unfold recovering
  cases hr : p stop c with
  | read | gaveUp => nofun
  | tooDeep made => exact absurd hr (h made)

theorem shallow_declaration_statement (room : Nat) :
    (∀ n, 2 * n + 4 ≤ room → Shallow n (declaration room)) ∧
      ∀ n, 2 * n + 3 ≤ room → Shallow n (statement room) := by
  induction room with
  | zero => exact ⟨fun n hn => absurd hn (by omega), fun n hn => absurd hn (by omega)⟩
  | succ room ih =>
    obtain ⟨hcdecl, hcstmt⟩ := consumes_declaration_statement room
    have hcdecl : Consumes 0 (declaration room) := fun stop c =>
      (hcdecl stop c).mono (Nat.zero_le _)
    have hcexpr := consumes_expression room
    constructor
    · intro n hn
      refine shallow_recovering (.accept (ih.2 n (by omega)) fun m hm t => ?_)
      have hdecl := ih.1 m (by omega)
      dsimp only
      split
      · exact shallow_classDecl hdecl hcdecl
      · exact (shallow_function hdecl hcdecl).bind (consumes_function hcdecl) fun _ => shallow_pure
      · exact shallow_varDecl ((shallow_expression_unary room).1 m (by omega)) hcexpr
    · intro n hn
      have hexpr (m : Nat) (hm : m ≤ n) := (shallow_expression_unary room).1 m (by omega)
      refine .accept (shallow_expressionStatement (hexpr n (Nat.le_refl n)) hcexpr) fun m hm t => ?_
      have hexpr := hexpr m (Nat.le_of_lt hm)
      have hstmt := ih.2 m (by omega)
      dsimp only
      split
      · exact shallow_forLoop hexpr hcexpr hstmt hcstmt
      · exact shallow_conditional hexpr hcexpr hstmt hcstmt
      · exact shallow_printStatement hexpr hcexpr
      · exact shallow_returnStatement hexpr hcexpr t
      · exact shallow_whileLoop hexpr hcexpr hstmt hcstmt
      · exact (shallow_block (ih.1 m (by omega)) hcdecl).bind (consumes_block hcdecl) fun _ =>
          shallow_pure

theorem shallow_program (hn : 2 * n + 4 ≤ room) : Shallow n (program room) :=
  shallow_piecesUntil ((shallow_declaration_statement room).1 n hn) fun stop c =>
    ((consumes_declaration_statement room).1 stop c).mono (Nat.zero_le _)

theorem shallow_wholeExpression (hn : 2 * n + 2 ≤ room) : Shallow n (wholeExpression room) := by
  refine ((shallow_expression_unary room).1 n hn).bind (consumes_expression room) fun _ => ?_
  refine shallow_atEnd.bind consumes_atEnd fun _ => ?_
  split
  · exact shallow_pure
  · exact shallow_reject

end Grammar

end LoxLang
