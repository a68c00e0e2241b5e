import LoxLang.Grammar.Program
import LoxLang.Lexical.Scan
import LoxLang.Proofs.WellFormed

/-!
# What is read is well formed

What is read is well formed, also after reports (`readProgram_wellFormed`,
`readExpression_wellFormed`): a declaration that gives up is missing where a statement may be
missing, and a bad assignment leaves the expression on its left. Each rule is judged by the pieces
it reads from spelled tokens (`Rule.Yields`).
-/

namespace LoxLang

/-! ## Tokens -/

namespace Segment

theorem single?_not_isWord (h : single? c = some kind) : kind.isWord = false := by
  unfold single? at h
  split at h <;> cases h <;> rfl

theorem double?_not_isWord (h : double? c = some (alone, withEqual)) :
    alone.isWord = false ∧ withEqual.isWord = false := by
  unfold double? at h
  split at h <;> cases h <;> exact ⟨rfl, rfl⟩

theorem spelled_of_not_isWord {t : Token} (h : t.kind.isWord = false) : t.Spelled := fun hk =>
  absurd hk (by simp [h])

theorem token?_next_spelled (c : Char) (rest : List Char) (p : Place) :
    ∀ t ∈ (next c rest).token? p, t.Spelled := by
  intro t ht
  unfold next at ht
  split at ht
  · next kind hc =>
    obtain rfl := Option.some.inj ht
    exact spelled_of_not_isWord (single?_not_isWord hc)
  split at ht
  · next alone withEqual hc =>
    have := double?_not_isWord hc
    split at ht <;> obtain rfl := Option.some.inj ht
    · exact spelled_of_not_isWord this.2
    · exact spelled_of_not_isWord this.1
  split at ht
  · split at ht
    · cases ht
    · obtain rfl := Option.some.inj ht
      exact spelled_of_not_isWord rfl
  split at ht
  · cases ht
  split at ht
  · dsimp only at ht
    split at ht
    · obtain rfl := Option.some.inj ht
      exact spelled_of_not_isWord rfl
    · cases ht
  split at ht
  · obtain rfl := Option.some.inj ht
    exact spelled_of_not_isWord rfl
  split at ht
  · obtain rfl := Option.some.inj ht
    exact fun _ => rfl
  · cases ht

/-- Every segment was taken off the front of some text. -/
theorem mem_segments {source : List Char} {s : Segment} (h : s ∈ segments source) :
    ∃ c rest, s = next c rest := by
  induction hn : source.length using Nat.strongRecOn generalizing source with
  | ind n ih =>
    cases source with
    | nil => cases h
    | cons c rest =>
      rw [segments_cons] at h
      rcases List.mem_cons.1 h with rfl | h
      · exact ⟨c, rest, rfl⟩
      · refine ih _ ?_ h rfl
        have := List.length_pos_iff.2 (text_next_ne_nil c rest)
        subst hn
        simp only [List.length_drop, List.length_cons]
        omega

end Segment

theorem scan_spelled (source : List Char) : ∀ t ∈ (scan source).tokens, t.Spelled := by
  intro t ht
  rcases List.mem_append.1 ht with ht | ht
  · obtain ⟨⟨p, s⟩, hs, ht⟩ := List.mem_filterMap.1 ht
    obtain ⟨c, rest, rfl⟩ := Segment.mem_segments (Place.mem_ofSegments hs)
    exact Segment.token?_next_spelled c rest p t ht
  · cases List.mem_singleton.1 ht
    exact Segment.spelled_of_not_isWord rfl

/-! ## Rules -/

def Cursor.Spelled (c : Cursor) : Prop := ∀ t ∈ c.rest, t.Spelled

/-- What was read satisfies `P`, and the tokens left are spelled. -/
def Outcome.Reads (P : α → Prop) : Outcome α → Prop
  | .read a next => P a ∧ next.Spelled
  | .gaveUp next => next.Spelled
  | .tooDeep _ => True

namespace Rule

/-- All that a rule reads from spelled tokens satisfies `P`. -/
def Yields (P : α → Prop) (p : Rule α) : Prop := ∀ stop c, c.Spelled → (p stop c).Reads P

theorem Yields.mono {P Q : α → Prop} (h : Yields P p) (hPQ : ∀ a, P a → Q a) : Yields Q p := by
  intro stop c hc
  have := h stop c hc
  cases hp : p stop c with
  | read a next => rw [hp] at this; exact ⟨hPQ a this.1, this.2⟩
  | gaveUp next => rw [hp] at this; exact this
  | tooDeep made => trivial

theorem yields_pure {P : α → Prop} (h : P a) : Yields P (pure a) := fun _ _ hc => ⟨h, hc⟩

theorem Yields.bind {P : α → Prop} {Q : β → Prop} {p : Rule α} {f : α → Rule β}
    (hp : Yields P p) (hf : ∀ a, P a → Yields Q (f a)) : Yields Q (p >>= f) := by
  intro stop c hc
  have := hp stop c hc
  change (Rule.bind p f stop c).Reads Q
  unfold Rule.bind
  cases h : p stop c with
  | read a next => rw [h] at this; exact hf a this.1 stop next this.2
  | gaveUp next => rw [h] at this; exact this
  | tooDeep made => trivial

theorem yields_tooDeep {P : α → Prop} : Yields P tooDeep := fun _ _ _ => trivial

theorem yields_reject {P : α → Prop} : Yields P (reject message) := fun _ _ hc => hc

theorem yields_complain : Yields (fun _ => True) (complain token message) :=
  fun _ _ hc => ⟨trivial, hc⟩

theorem yields_peek : Yields (fun _ => True) peek := fun _ _ hc => ⟨trivial, hc⟩

theorem yields_atEnd : Yields (fun _ => True) atEnd := fun _ _ hc => ⟨trivial, hc⟩

theorem yields_remaining : Yields (fun _ => True) remaining := fun _ _ hc => ⟨trivial, hc⟩

theorem yields_sees : Yields (fun _ => True) (sees kinds) := by
  intro stop c hc
  unfold sees
  split <;> exact ⟨trivial, hc⟩

theorem yields_accept :
    Yields (fun r => ∀ t ∈ r, t.Spelled ∧ t.kind ∈ kinds) (accept kinds) := by
  intro stop c hc
  unfold accept
  split
  · exact ⟨nofun, hc⟩
  · next t rest h =>
    have ht : ∀ u ∈ t :: rest, u.Spelled := h ▸ hc
    split
    · next hk =>
      refine ⟨?_, fun u hu => ht u (List.mem_cons_of_mem _ hu)⟩
      rintro _ ⟨⟩
      exact ⟨ht t List.mem_cons_self, by simpa using hk⟩
    · exact ⟨nofun, hc⟩

theorem yields_expect :
    Yields (fun t => t.Spelled ∧ t.kind = kind) (expect kind message) := by
  refine .bind yields_accept fun r hr => ?_
  cases r with
  | none => exact yields_reject
  | some t => exact yields_pure (by simpa using hr t rfl)

theorem yields_expect_identifier :
    Yields (fun t => IsIdentifier t.lexeme) (expect .identifier message) :=
  .mono yields_expect fun _ ht => ht.1.isIdentifier ht.2

theorem yields_piecesInto {P : α → Prop} (hp : Yields P p) (hacc : ∀ a ∈ acc, P a) :
    Yields (fun as => ∀ a ∈ as, P a) (piecesInto kinds p turns acc) := by
  induction turns generalizing acc with
  | nil => exact yields_pure (by simpa using hacc)
  | cons _ turns ih =>
    unfold piecesInto
    refine .bind yields_atEnd fun _ _ => .bind yields_sees fun _ _ => ?_
    split
    · exact yields_pure (by simpa using hacc)
    · exact hp.bind fun a ha => ih (List.forall_mem_cons.2 ⟨ha, hacc⟩)

theorem yields_piecesUntil {P : α → Prop} (hp : Yields P p) :
    Yields (fun as => ∀ a ∈ as, P a) (piecesUntil kinds p) :=
  .bind yields_remaining fun _ _ => yields_piecesInto hp nofun

theorem yields_furtherInto {P : α → Prop} (hp : Yields P p) (hacc : ∀ a ∈ acc, P a) :
    Yields (fun as => ∀ a ∈ as, P a) (furtherInto complaint p turns acc) := by
  induction turns generalizing acc with
  | nil => exact yields_pure (by simpa using hacc)
  | cons _ turns ih =>
    have next : Yields (fun as => ∀ a ∈ as, P a)
        (p >>= fun a => furtherInto complaint p turns (a :: acc)) :=
      hp.bind fun a ha => ih (List.forall_mem_cons.2 ⟨ha, hacc⟩)
    refine .bind yields_accept fun r _ => ?_
    cases r with
    | none => exact yields_pure (by simpa using hacc)
    | some t =>
      dsimp only
      split
      · exact .bind yields_peek fun _ _ => .bind yields_complain fun _ _ => next
      · exact next

theorem yields_commaList {P : α → Prop} (hp : Yields P p) :
    Yields (fun as => ∀ a ∈ as, P a) (commaList complaint p) := by
  refine .bind yields_sees fun _ _ => ?_
  split
  · exact yields_pure nofun
  · exact hp.bind fun a ha => .bind yields_remaining fun _ _ =>
      yields_furtherInto hp (by simpa using ha)

end Rule

/-! ## Expressions -/

namespace Grammar
open Rule

theorem join_wellFormed (hop : op.kind.isBinary ∨ op.kind = .kwOr ∨ op.kind = .kwAnd)
    (hl : left.WellFormed) (hr : right.WellFormed) : (join left op right).WellFormed := by
  unfold join
  split
  · exact ⟨hl, hr⟩
  · next h => exact ⟨hl, hop.resolve_right (by simpa using h), hr⟩

theorem yields_chainInto (hops : ∀ k ∈ ops, k.isBinary ∨ k = .kwOr ∨ k = .kwAnd)
    (hp : Yields Expr.WellFormed p) (hl : left.WellFormed) :
    Yields Expr.WellFormed (chainInto ops p turns left) := by
  induction turns generalizing left with
  | nil => exact yields_pure hl
  | cons _ turns ih =>
    refine .bind yields_accept fun r hr => ?_
    cases r with
    | none => exact yields_pure hl
    | some t => exact hp.bind fun e he => ih (join_wellFormed (hops _ (hr t rfl).2) hl he)

theorem yields_binary (hp : Yields Expr.WellFormed p)
    (hops : ∀ ops ∈ lvls, ∀ k ∈ ops, k.isBinary ∨ k = .kwOr ∨ k = .kwAnd) :
    Yields Expr.WellFormed (binary p lvls) := by
  induction lvls with
  | nil => exact hp
  | cons ops lvls ih =>
    have ih := ih fun _ h => hops _ (List.mem_cons_of_mem _ h)
    exact ih.bind fun e he => .bind yields_remaining fun _ _ =>
      yields_chainInto (hops _ List.mem_cons_self) ih he

theorem assignment?_wellFormed (ht : target.WellFormed) (hv : value.WellFormed) :
    ∀ e ∈ assignment? target value, e.WellFormed := by
  intro e he
  unfold assignment? at he
  split at he <;> cases he
  · exact ⟨ht, hv⟩
  · exact ⟨ht, hv⟩

theorem yields_assignTo (hp : Yields Expr.WellFormed p) (ht : target.WellFormed) :
    Yields Expr.WellFormed (assignTo p target) := by
  refine .bind yields_accept fun r _ => ?_
  cases r with
  | none => exact yields_pure ht
  | some t =>
    refine hp.bind fun v hv => ?_
    have := assignment?_wellFormed ht hv
    cases h : assignment? target v with
    | none => exact .bind yields_complain fun _ _ => yields_pure ht
    | some e => exact yields_pure (this e h)

theorem yields_primary (hp : Yields Expr.WellFormed p) : Yields Expr.WellFormed (primary p) := by
  refine .bind yields_accept fun r hr => ?_
  cases r with
  | none => exact yields_reject
  | some t =>
    have ht := (hr t rfl).1
    dsimp only
    split
    · exact yields_pure trivial
    · exact yields_pure trivial
    · exact yields_pure trivial
    · next hk => exact .bind yields_expect fun _ _ => .bind yields_expect fun _ _ =>
        yields_pure ⟨rfl, ht.lexeme_super hk⟩
    · next hk => exact yields_pure ⟨rfl, ht.lexeme_this hk⟩
    · next hk => exact yields_pure ⟨rfl, ht.isIdentifier hk⟩
    · exact hp.bind fun e he => .bind yields_expect fun _ _ => yields_pure he
    · exact yields_pure trivial

theorem yields_suffixesInto (hp : Yields Expr.WellFormed p) (he : e.WellFormed) :
    Yields Expr.WellFormed (suffixesInto p turns e) := by
  induction turns generalizing e with
  | nil => exact yields_pure he
  | cons _ turns ih =>
    refine .bind yields_accept fun r _ => ?_
    cases r with
    | none => exact yields_pure he
    | some t =>
      dsimp only
      split
      · exact .bind (yields_commaList hp) fun as has => .bind yields_expect fun _ _ =>
          ih ⟨he, wellFormedExprs_iff.2 has⟩
      · exact .bind yields_expect fun _ _ => ih he

theorem yields_call (hp : Yields Expr.WellFormed p) : Yields Expr.WellFormed (call p) :=
  .bind (yields_primary hp) fun _ he => .bind yields_remaining fun _ _ => yields_suffixesInto hp he

theorem levels_known :
    ∀ ops ∈ levels, ∀ k ∈ ops, k.isBinary ∨ k = .kwOr ∨ k = .kwAnd := by decide

theorem yields_expression_unary (room : Nat) :
    Yields Expr.WellFormed (expression room) ∧ Yields Expr.WellFormed (unary room) := by
  induction room with
  | zero => exact ⟨yields_tooDeep, yields_tooDeep⟩
  | succ room ih =>
    constructor
    · exact .bind (yields_binary ih.2 levels_known) fun e he => yields_assignTo ih.1 he
    · refine .bind yields_accept fun r hr => ?_
      cases r with
      | none => exact yields_call ih.1
      | some t =>
        have hop : t.kind.isUnary := by
          have := (hr t rfl).2
          simp only [List.mem_cons, List.not_mem_nil, or_false] at this
          rcases this with h | h <;> rw [h] <;> rfl
        exact ih.2.bind fun e he => yields_pure ⟨hop, he⟩

theorem yields_expression (room : Nat) : Yields Expr.WellFormed (expression room) :=
  (yields_expression_unary room).1

/-! ## Statements -/

theorem mem_settle (h : t ∈ settle previous ts) : t ∈ ts := by
  induction ts generalizing previous with
  | nil => exact h
  | cons u ts ih =>
    unfold settle at h
    split at h
    · exact h
    · exact List.mem_cons_of_mem _ (ih h)

theorem mem_skipToBoundary (h : t ∈ skipToBoundary ts) : t ∈ ts := by
  cases ts with
  | nil => exact h
  | cons u ts => exact List.mem_cons_of_mem _ (mem_settle h)

theorem yields_recovering (hp : Yields Stmt.WellFormed p) :
    Yields Stmt.WellFormed (recovering p) := by
  intro stop c hc
  have := hp stop c hc
  unfold recovering
  cases h : p stop c with
  | read s next => rw [h] at this; exact this
  | gaveUp next => rw [h] at this; exact ⟨trivial, fun t ht => this t (mem_skipToBoundary ht)⟩
  | tooDeep made => trivial

/-- A statement that declares nothing where it stands. -/
def Contained (s : Stmt) : Prop := s.WellFormed ∧ s.declared = []

section
variable {expression : Rule Expr} {declaration statement : Rule Stmt}
  (hexpr : Yields Expr.WellFormed expression) (hdecl : Yields Stmt.WellFormed declaration)
  (hstmt : Yields Contained statement)
include hexpr

theorem yields_optional :
    Yields Expr.WellFormedOption (optional kind expression) := by
  refine .bind yields_sees fun _ _ => ?_
  split
  · exact yields_pure trivial
  · exact hexpr.bind fun e he => yields_pure he

theorem yields_expressionStatement : Yields Contained (expressionStatement expression) :=
  hexpr.bind fun _ he => .bind yields_expect fun _ _ => yields_pure ⟨he, rfl⟩

theorem yields_printStatement : Yields Contained (printStatement expression) :=
  hexpr.bind fun _ he => .bind yields_expect fun _ _ => yields_pure ⟨he, rfl⟩

theorem yields_returnStatement : Yields Contained (returnStatement expression keyword) :=
  .bind (yields_optional hexpr) fun _ hv => .bind yields_expect fun _ _ => yields_pure ⟨hv, rfl⟩

theorem yields_varDecl : Yields Stmt.WellFormed (varDecl expression) := by
  refine .bind yields_expect_identifier fun name hname => ?_
  have rest : ∀ initializer, Expr.WellFormedOption initializer →
      Yields Stmt.WellFormed (do
        let _ ← expect .semicolon "Expect ';' after variable declaration."
        pure (.varDecl name initializer)) :=
    fun _ h => .bind yields_expect fun _ _ => yields_pure ⟨hname, h⟩
  refine .bind yields_accept fun r _ => ?_
  cases r with
  | none => exact rest none trivial
  | some _ => exact hexpr.bind fun e he => rest (some e) he

omit hexpr in
theorem desugarFor_contained {initializer : Option Stmt} {condition increment : Option Expr}
    {body : Stmt} (hi : ∀ s ∈ initializer, s.WellFormed)
    (hc : Expr.WellFormedOption condition) (hn : Expr.WellFormedOption increment)
    (hb : Contained body) : Contained (desugarFor initializer condition increment body) := by
  have hcond : (condition.getD (.literal (.bool true))).WellFormed := by
    cases condition with
    | none => trivial
    | some e => exact hc
  have loop : ∀ b, Contained b →
      Contained (.whileLoop (condition.getD (.literal (.bool true))) b) :=
    fun _ hb => ⟨⟨hcond, hb⟩, hb.2⟩
  have hloop : Contained (desugarFor none condition increment body) := by
    cases increment with
    | none => exact loop _ hb
    | some e => exact loop _ ⟨⟨hb.1, hn, trivial⟩, rfl⟩
  cases initializer with
  | none => exact hloop
  | some s => exact ⟨⟨hi s rfl, hloop.1, trivial⟩, rfl⟩

include hstmt

theorem yields_forLoop : Yields Contained (forLoop expression statement) := by
  refine .bind yields_expect fun _ _ => ?_
  have rest : ∀ initializer : Option Stmt, (∀ s ∈ initializer, s.WellFormed) →
      Yields Contained (do
        let condition ← optional .semicolon expression
        let _ ← expect .semicolon "Expect ';' after loop condition."
        let increment ← optional .rightParen expression
        let _ ← expect .rightParen "Expect ')' after for clauses."
        let body ← statement
        pure (desugarFor initializer condition increment body)) :=
    fun _ hi => .bind (yields_optional hexpr) fun _ hc => .bind yields_expect fun _ _ =>
      .bind (yields_optional hexpr) fun _ hn => .bind yields_expect fun _ _ =>
      hstmt.bind fun _ hb => yields_pure (desugarFor_contained hi hc hn hb)
  refine .bind yields_accept fun r _ => ?_
  cases r with
  | none =>
    exact .bind (yields_expressionStatement hexpr) fun s hs =>
      rest (some s) (by rintro _ ⟨⟩; exact hs.1)
  | some t =>
    dsimp only
    split
    · exact rest none nofun
    · exact .bind (yields_varDecl hexpr) fun s hs => rest (some s) (by rintro _ ⟨⟩; exact hs)

theorem yields_conditional : Yields Contained (conditional expression statement) := by
  refine .bind yields_expect fun _ _ => hexpr.bind fun c hc => .bind yields_expect fun _ _ =>
    hstmt.bind fun t ht => .bind yields_accept fun r _ => ?_
  cases r with
  | none => exact yields_pure ⟨⟨hc, ht, trivial, rfl⟩, by simp [Stmt.declared, ht.2]⟩
  | some _ => exact hstmt.bind fun e he =>
      yields_pure ⟨⟨hc, ht, he⟩, by simp [Stmt.declared, ht.2, he.2]⟩

theorem yields_whileLoop : Yields Contained (whileLoop expression statement) :=
  .bind yields_expect fun _ _ => hexpr.bind fun _ hc => .bind yields_expect fun _ _ =>
    hstmt.bind fun _ hb => yields_pure ⟨⟨hc, hb⟩, hb.2⟩

omit hexpr hstmt
include hdecl

theorem yields_block : Yields WellFormedStmts (block declaration) :=
  .bind (yields_piecesUntil hdecl) fun _ hss => .bind yields_expect fun _ _ =>
    yields_pure (wellFormedStmts_iff.2 hss)

theorem yields_function : Yields Function.WellFormed (function kind declaration) :=
  .bind yields_expect_identifier fun _ hn => .bind yields_expect fun _ _ =>
    .bind (yields_commaList yields_expect_identifier) fun _ hps => .bind yields_expect fun _ _ =>
    .bind yields_expect fun _ _ => .bind (yields_block hdecl) fun _ hb => yields_pure ⟨hn, hps, hb⟩

theorem yields_classDecl : Yields Stmt.WellFormed (classDecl declaration) := by
  refine .bind yields_expect_identifier fun name hname => ?_
  have rest : ∀ superclass : Option Reference, (∀ r ∈ superclass, r.Unresolved) →
      Yields Stmt.WellFormed (do
        let _ ← expect .leftBrace "Expect '\x7b' before class body."
        let methods ← piecesUntil [.rightBrace] (function "method" declaration)
        let _ ← expect .rightBrace "Expect '\x7d' after class body."
        pure (.classDecl name superclass methods)) :=
    fun _ hs => .bind yields_expect fun _ _ => .bind (yields_piecesUntil (yields_function hdecl))
      fun _ hms => .bind yields_expect fun _ _ =>
      yields_pure ⟨hname, hs, wellFormedFunctions_iff.2 hms⟩
  refine .bind yields_accept fun r _ => ?_
  cases r with
  | none => exact rest none nofun
  | some _ =>
    refine .bind yields_expect_identifier fun t ht => ?_
    exact rest (some ⟨t, none⟩) (by rintro _ ⟨⟩; exact ⟨rfl, ht⟩)

end

theorem yields_declaration_statement (room : Nat) :
    Yields Stmt.WellFormed (declaration room) ∧ Yields Contained (statement room) := by
  induction room with
  | zero => exact ⟨yields_tooDeep, yields_tooDeep⟩
  | succ room ih =>
    obtain ⟨hdecl, hstmt⟩ := ih
    have hexpr := yields_expression room
    constructor
    · refine yields_recovering (.bind yields_accept fun r _ => ?_)
      cases r with
      | none => exact hstmt.mono fun _ h => h.1
      | some t =>
        dsimp only
        split
        · exact yields_classDecl hdecl
        · exact .bind (yields_function hdecl) fun f hf => yields_pure hf
        · exact yields_varDecl hexpr
    · refine .bind yields_accept fun r _ => ?_
      cases r with
      | none => exact yields_expressionStatement hexpr
      | some t =>
        dsimp only
        split
        · exact yields_forLoop hexpr hstmt
        · exact yields_conditional hexpr hstmt
        · exact yields_printStatement hexpr
        · exact yields_returnStatement hexpr
        · exact yields_whileLoop hexpr hstmt
        · exact .bind (yields_block hdecl) fun ss hss => yields_pure ⟨hss, rfl⟩

/-! ## Programs and expressions -/

theorem run_wellFormed {P : α → Prop} {p : Rule α} (hp : Yields P p)
    (hts : ∀ t ∈ tokens, t.Spelled) (h : (run p tokens).value? = some (some a)) : P a := by
  have := hp ((tokens.find? (·.kind = .eof)).getD ⟨.eof, "", none, 1, 1⟩)
    ⟨tokens.takeWhile (·.kind ≠ .eof), []⟩ fun t ht => hts t (List.takeWhile_subset _ ht)
  simp only [run] at h
  split at h
  · next hr =>
    rw [hr] at this
    simp only [Reading.value?, Option.some.injEq] at h
    exact h ▸ this.1
  · cases h
  · cases h

theorem yields_program (room : Nat) : Yields (fun ss => ∀ s ∈ ss, s.WellFormed) (program room) :=
  yields_piecesUntil (yields_declaration_statement room).1

theorem yields_wholeExpression (room : Nat) : Yields Expr.WellFormed (wholeExpression room) := by
  refine .bind (yields_expression room) fun e he => .bind yields_atEnd fun _ _ => ?_
  split
  · exact yields_pure he
  · exact yields_reject

/-- Every program that is read is well formed. -/
theorem readProgram_wellFormed (hts : ∀ t ∈ tokens, t.Spelled)
    (h : (readProgram room tokens).value? = some ss) : WellFormedStmts ss := by
  unfold readProgram at h
  split at h
  · next value reports hr =>
    cases value with
    | none => cases h; trivial
    | some _ =>
      cases h
      exact wellFormedStmts_iff.2 (run_wellFormed (yields_program room) hts (by rw [hr]; rfl))
  · cases h

/-- Every expression that is read by itself is well formed. -/
theorem readExpression_wellFormed (hts : ∀ t ∈ tokens, t.Spelled)
    (h : (readExpression room tokens).value? = some (some e)) : e.WellFormed :=
  run_wellFormed (yields_wholeExpression room) hts h

end Grammar

end LoxLang
