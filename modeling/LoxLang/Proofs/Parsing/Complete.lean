import LoxLang.Proofs.Parsing.Sound

/-!
# What is derived is read

What the grammar derives is read, whatever the tokens behind it are, as long as they do not continue
it (`Derives.read`). A rule leads from some tokens to the tree that it reads from them
(`Rule.Leads`). The loops over operators and over calls are led through from the left: where a loop
arrives at a tree, it goes on with the tokens behind it.
-/

namespace LoxLang

/-! ## What stands at the front -/

open Grammar in
theorem Clear.of_begins (h : Begins starts ts) (hk : ∀ k ∈ starts, k ∉ kinds) :
    Clear kinds (ts ++ rest) := by
  obtain ⟨t, us, rfl, ht⟩ := h
  rintro _ ⟨⟩
  exact hk _ ht

theorem Clear.nil : Clear kinds [] := nofun

theorem Clear.mono (h : Clear kinds ts) (hk : others ⊆ kinds) : Clear others ts :=
  fun t ht hmem => h t ht (hk hmem)

theorem Clear.cons (hk : t.kind ∉ kinds) : Clear kinds (t :: ts) := by
  rintro _ ⟨⟩
  exact hk

open Grammar in
theorem Clear.tokens {ps : Row α} (h : Clear kinds rest) (hps : ∀ q ∈ ps, Begins starts q.2)
    (hk : ∀ k ∈ starts, k ∉ kinds) : Clear kinds (ps.tokens ++ rest) := by
  cases ps with
  | nil => exact h
  | cons q ps =>
    rw [Row.tokens, List.flatMap_cons, List.append_assoc]
    exact .of_begins (hps q List.mem_cons_self) hk

/-! ## Rules -/

namespace Rule
open Grammar

variable {α β : Type}

/-- The rule reads the tokens as `a` when `rest` follows them, and makes no report. -/
def Leads (p : Rule α) (ts : List Token) (a : α) (rest : List Token) : Prop :=
  ∀ stop made, p stop ⟨ts ++ rest, made⟩ = .read a ⟨rest, made⟩

section
variable {p : Rule α} {f : α → Rule β} {b : β}

theorem leads_pure {a : α} : Leads (pure a) [] a rest := fun _ _ => rfl

theorem Leads.bind (hp : Leads p us a (vs ++ rest)) (hf : Leads (f a) vs b rest) :
    Leads (p >>= f) (us ++ vs) b rest := by
  intro stop made
  change Rule.bind p f stop _ = _
  rw [List.append_assoc, Rule.bind, hp stop made]
  exact hf stop made

/-- A rule behind which nothing more is read. -/
theorem Leads.last (hp : Leads p ts a rest) (hf : f a = pure b) : Leads (p >>= f) ts b rest := by
  have h : Leads (p >>= f) (ts ++ []) b rest := Leads.bind hp (hf ▸ leads_pure)
  rwa [List.append_nil] at h

theorem Leads.remaining {f : List Token → Rule β} (hf : Leads (f (vs ++ rest)) vs b rest) :
    Leads (remaining >>= f) vs b rest := fun stop made => hf stop made

theorem Leads.atEnd {f : Bool → Rule β} (hf : Leads (f (vs ++ rest).isEmpty) vs b rest) :
    Leads (atEnd >>= f) vs b rest := fun stop made => hf stop made

theorem Leads.seen {f : Bool → Rule β} (h : Begins kinds (vs ++ rest))
    (hf : Leads (f true) vs b rest) : Leads (sees kinds >>= f) vs b rest := by
  obtain ⟨t, us, hts, hk⟩ := h
  intro stop made
  change Rule.bind (sees kinds) f stop ⟨vs ++ rest, made⟩ = _
  rw [← hf stop made]
  simp only [Rule.bind, sees, hts, List.contains_iff_mem.2 hk]

theorem Leads.unseen {f : Bool → Rule β} (h : Clear kinds (vs ++ rest))
    (hf : Leads (f false) vs b rest) : Leads (sees kinds >>= f) vs b rest := by
  intro stop made
  change Rule.bind (sees kinds) f stop ⟨vs ++ rest, made⟩ = _
  rw [← hf stop made]
  cases hts : vs ++ rest with
  | nil => rfl
  | cons t us =>
    have hk : kinds.contains t.kind = false := by simpa using h t (by rw [hts]; rfl)
    simp only [Rule.bind, sees, hk]

theorem Leads.accepted {f : Option Token → Rule β} (hk : t.kind ∈ kinds)
    (hf : Leads (f (some t)) vs b rest) : Leads (accept kinds >>= f) (t :: vs) b rest := by
  intro stop made
  change Rule.bind (accept kinds) f stop ⟨t :: (vs ++ rest), made⟩ = _
  rw [← hf stop made]
  simp only [Rule.bind, accept, List.contains_iff_mem.2 hk, if_true]

theorem Leads.declined {f : Option Token → Rule β} (h : Clear kinds (vs ++ rest))
    (hf : Leads (f none) vs b rest) : Leads (accept kinds >>= f) vs b rest := by
  intro stop made
  change Rule.bind (accept kinds) f stop ⟨vs ++ rest, made⟩ = _
  rw [← hf stop made]
  cases hts : vs ++ rest with
  | nil => rfl
  | cons t us =>
    have hk : kinds.contains t.kind = false := by simpa using h t (by rw [hts]; rfl)
    simp only [Rule.bind, accept, hk]
    rfl

theorem leads_expect (hk : t.kind = kind) : Leads (expect kind message) [t] t rest :=
  .accepted (by simp [hk]) leads_pure

theorem Leads.expect {f : Token → Rule β} (hk : t.kind = kind) (hf : Leads (f t) vs b rest) :
    Leads (expect kind message >>= f) (t :: vs) b rest :=
  (leads_expect hk).bind hf

end

/-! ### Loops -/

section
variable {p : Rule α}

/-- Pieces are read up to where they end, when each of them begins as a piece and nothing that
continues a piece stands behind them. -/
theorem leads_piecesInto {ps : Row α} {acc : List α} (hstarts : ∀ q ∈ ps, Begins starts q.2)
    (hkinds : ∀ k ∈ starts, k ∉ kinds) (hfollow : ∀ k ∈ starts, k ∉ follow)
    (hp : ∀ q ∈ ps, ∀ rest, Clear follow rest → Leads p q.2 q.1 rest) (hrest : Clear follow rest)
    (hend : rest = [] ∨ Begins kinds rest) (hturns : (ps.tokens ++ rest).length ≤ turns.length) :
    Leads (piecesInto kinds p turns acc) ps.tokens (acc.reverse ++ ps.trees) rest := by
  induction ps generalizing turns acc with
  | nil =>
    rw [Row.trees, List.map_nil, List.append_nil]
    cases turns with
    | nil => exact leads_pure
    | cons _ turns =>
      refine .atEnd ?_
      rcases hend with rfl | hend
      · exact .unseen .nil leads_pure
      · refine .seen hend ?_
        rw [Bool.or_true]
        exact leads_pure
  | cons q ps ih =>
    obtain ⟨hq, hps⟩ := List.forall_mem_cons.1 hstarts
    obtain ⟨hread, hp⟩ := List.forall_mem_cons.1 hp
    have htokens : Row.tokens (q :: ps) = q.2 ++ Row.tokens ps := List.flatMap_cons
    have hnext : Clear kinds (Row.tokens (q :: ps) ++ rest) := by
      rw [htokens, List.append_assoc]
      exact .of_begins hq hkinds
    have hfront : (Row.tokens (q :: ps) ++ rest).isEmpty = false := by
      obtain ⟨t, us, hts, -⟩ := hq
      rw [htokens, hts]
      rfl
    cases turns with
    | nil =>
      have hnil : Row.tokens (q :: ps) ++ rest = [] :=
        List.eq_nil_of_length_eq_zero (Nat.le_zero.1 hturns)
      rw [hnil] at hfront
      cases hfront
    | cons _ turns =>
      refine .atEnd (.unseen hnext ?_)
      rw [hfront, htokens]
      refine .bind (hread _ (hrest.tokens hps hfollow)) ?_
      have hlen : (Row.tokens ps ++ rest).length ≤ turns.length := by
        obtain ⟨t, us, hts, -⟩ := hq
        simp only [htokens, hts, List.length_append, List.length_cons] at hturns ⊢
        omega
      have hloop : Leads (piecesInto kinds p turns (q.1 :: acc)) (Row.tokens ps)
          ((q.1 :: acc).reverse ++ Row.trees ps) rest := ih hps hp hlen
      simpa [Row.trees] using hloop

theorem leads_piecesUntil {ps : Row α} (hstarts : ∀ q ∈ ps, Begins starts q.2)
    (hkinds : ∀ k ∈ starts, k ∉ kinds) (hfollow : ∀ k ∈ starts, k ∉ follow)
    (hp : ∀ q ∈ ps, ∀ rest, Clear follow rest → Leads p q.2 q.1 rest) (hrest : Clear follow rest)
    (hend : rest = [] ∨ Begins kinds rest) :
    Leads (piecesUntil kinds p) ps.tokens ps.trees rest :=
  .remaining (leads_piecesInto hstarts hkinds hfollow hp hrest hend (Nat.le_refl _))

theorem leads_furtherInto {ps : Row α} {acc : List α} (hps : ps.Further us)
    (hp : ∀ q ∈ ps, ∀ t rest, t.kind = .comma ∨ t.kind = .rightParen →
      Leads p q.2 q.1 (t :: rest))
    (hlen : acc.length + ps.length ≤ 255) (ht : t.kind = .rightParen)
    (hturns : (us ++ t :: rest).length ≤ turns.length) :
    Leads (furtherInto complaint p turns acc) us (acc.reverse ++ ps.trees) (t :: rest) := by
  induction hps generalizing turns acc with
  | nil =>
    rw [Row.trees, List.map_nil, List.append_nil]
    cases turns with
    | nil => exact leads_pure
    | cons _ turns => exact .declined (.cons (by simp [ht])) leads_pure
  | @cons ps us a ts comma hcomma hps ih =>
    obtain ⟨hread, hp⟩ := List.forall_mem_cons.1 hp
    cases turns with
    | nil => exact absurd hturns (by simp)
    | cons _ turns =>
      refine .accepted (by simp [hcomma]) ?_
      dsimp only
      rw [if_neg (by simp only [List.length_cons] at hlen; omega)]
      have hrest : Leads (furtherInto complaint p turns (a :: acc)) us
          ((a :: acc).reverse ++ Row.trees ps) (t :: rest) := by
        refine ih hp ?_ ?_
        · simp only [List.length_cons] at hlen ⊢
          omega
        · simp only [List.cons_append, List.append_assoc, List.length_cons, List.length_append]
            at hturns ⊢
          omega
      have hnext : Leads p ts a (us ++ t :: rest) := by
        cases hps with
        | nil => exact hread _ _ (.inr ht)
        | cons hcomma _ => exact hread _ _ (.inl hcomma)
      rw [List.reverse_cons, List.append_assoc] at hrest
      exact hnext.bind hrest

theorem leads_commaList {ps : Row α} (hps : ps.Commas us)
    (hstarts : ∀ q ∈ ps, Begins starts q.2) (hparen : .rightParen ∉ starts)
    (hp : ∀ q ∈ ps, ∀ t rest, t.kind = .comma ∨ t.kind = .rightParen →
      Leads p q.2 q.1 (t :: rest))
    (hlen : ps.length ≤ 255) (ht : t.kind = .rightParen) :
    Leads (commaList complaint p) us ps.trees (t :: rest) := by
  cases hps with
  | nil => exact .seen (.cons (by simp [ht])) leads_pure
  | @cons ps us a ts hps =>
    obtain ⟨hread, hp⟩ := List.forall_mem_cons.1 hp
    obtain ⟨hfirst, -⟩ := List.forall_mem_cons.1 hstarts
    refine .unseen ?_ ?_
    · rw [List.append_assoc]
      refine .of_begins hfirst fun k hk => ?_
      rintro hmem
      exact hparen (List.mem_singleton.1 hmem ▸ hk)
    · have hnext : Leads p ts a (us ++ t :: rest) := by
        cases hps with
        | nil => exact hread _ _ (.inr ht)
        | cons hcomma _ => exact hread _ _ (.inl hcomma)
      have hfurther : Leads (furtherInto complaint p (us ++ t :: rest) [a]) us
          ([a].reverse ++ Row.trees ps) (t :: rest) :=
        leads_furtherInto hps hp (by simpa [Nat.add_comm] using hlen) ht (Nat.le_refl _)
      exact hnext.bind (.remaining hfurther)

end

end Rule

/-! ## Expressions -/

namespace Grammar
open Rule

namespace Level

/-- The levels that bind tighter than a level, loosest first. -/
def tighter : Level → List Level
  | or => [and, equality, comparison, term, factor]
  | and => [equality, comparison, term, factor]
  | equality => [comparison, term, factor]
  | comparison => [term, factor]
  | term => [factor]
  | factor => []

/-- The kinds that continue an operand of the level when they stand behind it. -/
def inside (l : Level) : List TokenKind := l.tighter.flatMap operators ++ [.leftParen, .dot]

/-- The rule for the operands of the level. -/
def operandRule (p : Rule Expr) (l : Level) : Rule Expr := binary p (l.tighter.map operators)

/-- The rule for operands with operators of the level between them. -/
def rule (p : Rule Expr) (l : Level) : Rule Expr := chain l.operators (l.operandRule p)

theorem not_mem_inside (l : Level) : ∀ k ∈ l.operators, k ∉ l.inside := by
  cases l <;> decide

end Level

/-- The kinds that continue an expression when they stand behind it. -/
def expressionFollow : List TokenKind := .equal :: (Level.or.operators ++ Level.or.inside)

/-- What is derived is read by its rule. Loops go on from what they have read already. -/
def Nonterminal.Read (n : Nat) : Nonterminal → List Token → Prop
  | program ss, ts => Leads (Grammar.program n) ts ss []
  | declaration s, ts => ∀ rest, Clear [.kwElse] rest → Leads (Grammar.declaration n) ts s rest
  | function f, ts => ∀ kind rest, Leads (Grammar.function kind (Grammar.declaration n)) ts f rest
  | varDecl s, ts => ∀ rest, Leads (Grammar.varDecl (Grammar.expression n)) ts s rest
  | statement dangling s, ts => ∀ rest, (dangling = true → Clear [.kwElse] rest) →
    Leads (Grammar.statement n) ts s rest
  | expressionStatement s, ts => ∀ rest,
    Leads (Grammar.expressionStatement (Grammar.expression n)) ts s rest
  | initializer s, ts => ∀ (α : Type) (f : Option Stmt → Rule α) vs a rest, Leads (f s) vs a rest →
    Leads (accept [.semicolon, .kwVar] >>= fun
      | none => Grammar.expressionStatement (Grammar.expression n) >>= fun s => f (some s)
      | some t => if t.kind = .semicolon then f none
        else Grammar.varDecl (Grammar.expression n) >>= fun s => f (some s)) (ts ++ vs) a rest
  | optional e, ts => ∀ kind ∈ [TokenKind.semicolon, .rightParen], ∀ t rest, t.kind = kind →
    Leads (Grammar.optional kind (Grammar.expression n)) ts e (t :: rest)
  | expression e, ts => ∀ rest, Clear expressionFollow rest → Leads (Grammar.expression n) ts e rest
  | level l e, ts => ∀ vs e' rest, Clear l.inside (vs ++ rest) →
    (∀ turns : List Token, (vs ++ rest).length ≤ turns.length →
      Leads (chainInto l.operators (l.operandRule (Grammar.unary n)) turns e) vs e' rest) →
    Leads (l.rule (Grammar.unary n)) (ts ++ vs) e' rest
  | unary e, ts => ∀ rest, Clear [.leftParen, .dot] rest → Leads (Grammar.unary n) ts e rest
  | call e, ts => ∀ vs e' rest, (∀ turns : List Token, (vs ++ rest).length ≤ turns.length →
      Leads (suffixesInto (Grammar.expression n) turns e) vs e' rest) →
    Leads (Grammar.call (Grammar.expression n)) (ts ++ vs) e' rest
  | primary e, ts => ∀ rest, Leads (Grammar.primary (Grammar.expression n)) ts e rest

section
variable {p : Rule Expr}

theorem leads_chainInto_stop (h : Clear kinds rest) :
    Leads (chainInto kinds p turns left) [] left rest := by
  cases turns with
  | nil => exact leads_pure
  | cons _ turns => exact .declined h leads_pure

theorem leads_chain_stop (hp : Leads p ts e rest) (h : Clear kinds rest) :
    Leads (chain kinds p) ts e rest := by
  have hloop : Leads (chain kinds p) (ts ++ []) e rest :=
    Leads.bind hp (.remaining (leads_chainInto_stop h))
  rwa [List.append_nil] at hloop

theorem leads_binary_stop (hp : Leads p ts e rest) (ls : List (List TokenKind))
    (h : Clear ls.flatten rest) : Leads (binary p ls) ts e rest := by
  induction ls with
  | nil => exact hp
  | cons kinds ls ih =>
    rw [List.flatten_cons] at h
    exact leads_chain_stop (ih (h.mono (List.subset_append_right _ _)))
      (h.mono (List.subset_append_left _ _))

end

namespace Nonterminal.Read

theorem level_stop (h : (level l e).Read n ts) (hrest : Clear (l.operators ++ l.inside) rest) :
    Leads (l.rule (Grammar.unary n)) ts e rest := by
  have hloop := h [] e rest (hrest.mono (List.subset_append_right _ _))
    fun _ _ => leads_chainInto_stop (hrest.mono (List.subset_append_left _ _))
  rwa [List.append_nil] at hloop

theorem operand {l : Level} (h : (l.operand e).Read n ts) (hrest : Clear l.inside rest) :
    Leads (l.operandRule (Grammar.unary n)) ts e rest := by
  cases l with
  | factor => exact h rest hrest
  | or | and | equality | comparison | term => exact h.level_stop hrest

theorem of_operand {l : Level} (h : (l.operand e).Read n ts) : (level l e).Read n ts :=
  fun _ _ _ hfront hloop => (h.operand hfront).bind (.remaining (hloop _ (Nat.le_refl _)))

theorem operator {l : Level} (hleft : (level l left).Read n ts) (hop : op.kind ∈ l.operators)
    (hright : (l.operand right).Read n us) :
    (level l (l.node left op right)).Read n (ts ++ op :: us) := by
  intro vs e' rest hfront hloop
  rw [List.append_assoc, List.cons_append]
  refine hleft (op :: (us ++ vs)) e' rest (.cons (l.not_mem_inside _ hop)) fun turns hturns => ?_
  cases turns with
  | nil => exact absurd hturns (by simp)
  | cons _ turns =>
    refine .accepted hop ((hright.operand hfront).bind ?_)
    rw [join_eq_node l hop]
    refine hloop turns ?_
    simp only [List.cons_append, List.append_assoc, List.length_cons, List.length_append]
      at hturns ⊢
    omega

/-- A call is all of an operand where nothing continues it. -/
theorem call_stop (h : (call e).Read n ts) (hrest : Clear [.leftParen, .dot] rest) :
    Leads (Grammar.call (Grammar.expression n)) ts e rest := by
  have hloop := h [] e rest fun turns _ => by
    cases turns with
    | nil => exact leads_pure
    | cons _ turns => exact .declined hrest leads_pure
  rwa [List.append_nil] at hloop

theorem of_primary (h : (primary e).Read n ts) : (call e).Read n ts :=
  fun _ _ _ hloop => (h _).bind (.remaining (hloop _ (Nat.le_refl _)))

theorem get (ho : (call o).Read n ts) (hd : dot.kind = .dot) (hn : name.kind = .identifier) :
    (call (.get o name)).Read n (ts ++ [dot, name]) := by
  intro vs e' rest hloop
  rw [List.append_assoc]
  refine ho (dot :: name :: vs) e' rest fun turns hturns => ?_
  cases turns with
  | nil => exact absurd hturns (by simp)
  | cons _ turns =>
    refine .accepted (by simp [hd]) ?_
    dsimp only
    rw [if_neg (by simp [hd])]
    refine .expect hn (hloop turns ?_)
    simp only [List.cons_append, List.length_cons] at hturns
    omega

theorem call_arguments {as : Row Expr} (hf : (call f).Read n ts) (hl : lpar.kind = .leftParen)
    (has : ∀ a ∈ as, (expression a.1).Read n a.2) (hstarts : ∀ a ∈ as, Begins expressionStarts a.2)
    (hcommas : as.Commas us) (hle : as.length ≤ 255) (hr : rpar.kind = .rightParen) :
    (call (.call f rpar as.trees)).Read n (ts ++ lpar :: (us ++ [rpar])) := by
  intro vs e' rest hloop
  rw [List.append_assoc, List.cons_append, List.append_assoc]
  refine hf (lpar :: (us ++ rpar :: vs)) e' rest fun turns hturns => ?_
  cases turns with
  | nil => exact absurd hturns (by simp)
  | cons _ turns =>
    refine .accepted (by simp [hl]) ?_
    dsimp only
    rw [if_pos hl]
    refine .bind (leads_commaList hcommas hstarts (by decide) ?_ hle hr)
      (.expect hr (hloop turns ?_))
    · rintro a ha t rest (ht | ht)
      · exact has a ha _ (.cons (by rw [ht]; decide))
      · exact has a ha _ (.cons (by rw [ht]; decide))
    · simp only [List.cons_append, List.append_assoc, List.length_cons, List.length_append]
        at hturns ⊢
      omega

theorem called (h : (call e).Read n ts) (hstarts : Begins operandStarts ts) :
    (unary e).Read (n + 1) ts :=
  fun _ hrest => .declined (.of_begins hstarts (by decide)) (h.call_stop hrest)

theorem unary_operator (hop : op.kind ∈ [TokenKind.bang, .minus]) (h : (unary e).Read n ts) :
    (unary (.unary op e)).Read (n + 1) (op :: ts) :=
  fun rest hrest => .accepted hop ((h rest hrest).last rfl)

/-- What is read as an operand on the left of an equals sign is the target of an assignment. -/
theorem assignment (ht : (unary target).Read n us) (hk : equal.kind = .equal)
    (hv : (expression v).Read n ts) (he : assignment? target v = some e) :
    (expression e).Read (n + 1) (us ++ equal :: ts) := by
  intro rest hrest
  refine .bind (leads_binary_stop (ht _ ?_) levels ?_) (.accepted (by simp [hk]) ?_)
  · exact .cons (by simp [hk])
  · exact .cons (by rw [hk]; decide)
  · exact (hv rest hrest).last (by rw [he])

theorem of_level (h : (level .or e).Read n ts) : (expression e).Read (n + 1) ts := by
  intro rest hrest
  have hlevel : Clear (Level.or.operators ++ Level.or.inside) rest :=
    hrest.mono (List.subset_cons_self _ _)
  have hequal : Clear [.equal] rest := hrest.mono (by simp [expressionFollow])
  have hread : Leads (Grammar.expression (n + 1)) (ts ++ []) e rest :=
    .bind (h.level_stop hlevel) (.declined hequal leads_pure)
  rwa [List.append_nil] at hread

theorem constant (h : Denotes t c) : (primary (.literal c)).Read n [t] := by
  intro rest
  cases h with
  | false hk | true hk | nil hk =>
    refine .accepted (by simp [hk]) ?_
    simp only [hk]
    exact leads_pure
  | literal h =>
    refine .accepted (by rcases h with hk | hk <;> simp [hk]) ?_
    rcases h with hk | hk <;> simp only [hk] <;> exact leads_pure

theorem this (hk : keyword.kind = .kwThis) :
    (primary (.this ⟨keyword, none⟩)).Read n [keyword] := by
  intro rest
  refine .accepted (by simp [hk]) ?_
  simp only [hk]
  exact leads_pure

theorem named (hk : name.kind = .identifier) :
    (primary (.variable ⟨name, none⟩)).Read n [name] := by
  intro rest
  refine .accepted (by simp [hk]) ?_
  simp only [hk]
  exact leads_pure

theorem super (hk : keyword.kind = .kwSuper) (hd : dot.kind = .dot) (hn : name.kind = .identifier) :
    (primary (.super ⟨keyword, none⟩ name)).Read n [keyword, dot, name] := by
  intro rest
  refine .accepted (by simp [hk]) ?_
  simp only [hk]
  exact .expect hd ((leads_expect hn).last rfl)

theorem grouping (hl : lpar.kind = .leftParen) (h : (expression e).Read n ts)
    (hr : rpar.kind = .rightParen) : (primary (.grouping e)).Read n (lpar :: (ts ++ [rpar])) := by
  intro rest
  refine .accepted (by simp [hl]) ?_
  simp only [hl]
  exact (h _ (.cons (by rw [hr]; decide))).bind ((leads_expect hr).last rfl)

/-! ### Statements -/

theorem evaluation (h : (expression e).Read n ts) (hs : semicolon.kind = .semicolon) :
    (expressionStatement (.expression e)).Read n (ts ++ [semicolon]) :=
  fun _ => (h _ (.cons (by rw [hs]; decide))).bind ((leads_expect hs).last rfl)

theorem uninitialized (hn : name.kind = .identifier) (hs : semicolon.kind = .semicolon) :
    (varDecl (.varDecl name none)).Read n [name, semicolon] :=
  fun _ => .expect hn (.declined (.cons (by simp [hs])) ((leads_expect hs).last rfl))

theorem initialized (hn : name.kind = .identifier) (hk : equal.kind = .equal)
    (h : (expression e).Read n ts) (hs : semicolon.kind = .semicolon) :
    (varDecl (.varDecl name (some e))).Read n (name :: equal :: (ts ++ [semicolon])) :=
  fun _ => .expect hn <| .accepted (by simp [hk]) <|
    (h _ (.cons (by rw [hs]; decide))).bind ((leads_expect hs).last rfl)

theorem absent : (optional none).Read n [] :=
  fun _ _ _ _ ht => .seen (.cons (List.mem_singleton.2 ht)) leads_pure

theorem present (h : (expression e).Read n ts) (hstarts : Begins expressionStarts ts) :
    (optional (some e)).Read n ts := by
  intro kind hkind t rest ht
  have hunseen : ∀ k ∈ expressionStarts, k ∉ [kind] :=
    (by decide : ∀ kind ∈ [TokenKind.semicolon, .rightParen], ∀ k ∈ expressionStarts, k ∉ [kind])
      kind hkind
  have hfollow : kind ∉ expressionFollow :=
    (by decide : ∀ kind ∈ [TokenKind.semicolon, .rightParen], kind ∉ expressionFollow) kind hkind
  exact .unseen (.of_begins hstarts hunseen) ((h _ (.cons (ht ▸ hfollow))).last rfl)

theorem noInitializer (hs : semicolon.kind = .semicolon) :
    (initializer none).Read n [semicolon] := by
  intro α f vs a rest hf
  refine .accepted (by simp [hs]) ?_
  dsimp only
  rwa [if_pos hs]

theorem declared (hk : keyword.kind = .kwVar) (h : (varDecl s).Read n ts) :
    (initializer (some s)).Read n (keyword :: ts) := by
  intro α f vs a rest hf
  refine .accepted (by simp [hk]) ?_
  dsimp only
  rw [if_neg (by simp [hk])]
  exact (h _).bind hf

theorem evaluated (h : (Nonterminal.expressionStatement s).Read n ts)
    (hstarts : Begins expressionStarts ts) : (initializer (some s)).Read n ts := by
  intro α f vs a rest hf
  refine .declined ?_ ((h _).bind hf)
  rw [List.append_assoc]
  exact .of_begins hstarts (by decide)

theorem plain (h : (Nonterminal.expressionStatement s).Read n ts)
    (hstarts : Begins expressionStarts ts) : (statement false s).Read (n + 1) ts :=
  fun _ _ => .declined (.of_begins hstarts (by decide)) (h _)

theorem forLoop (hk : keyword.kind = .kwFor) (hl : lpar.kind = .leftParen)
    (hi : (initializer i).Read n us) (hc : (optional c).Read n vs)
    (hs : semicolon.kind = .semicolon) (he : (optional e).Read n ws) (hr : rpar.kind = .rightParen)
    (hbody : (statement dangling s).Read n ts) :
    (statement dangling
      (behind i (.whileLoop (c.getD (.literal (.bool true))) (followed s e)))).Read (n + 1)
      (keyword :: lpar :: (us ++ (vs ++ semicolon :: (ws ++ rpar :: ts)))) := by
  intro rest hrest
  refine .accepted (by simp [hk]) ?_
  simp only [hk]
  have hclauses : Leads (do
      let condition ← Grammar.optional .semicolon (Grammar.expression n)
      let _ ← Rule.expect .semicolon "Expect ';' after loop condition."
      let increment ← Grammar.optional .rightParen (Grammar.expression n)
      let _ ← Rule.expect .rightParen "Expect ')' after for clauses."
      let body ← Grammar.statement n
      pure (desugarFor i condition increment body)) (vs ++ semicolon :: (ws ++ rpar :: ts))
      (behind i (.whileLoop (c.getD (.literal (.bool true))) (followed s e))) rest := by
    refine (hc _ (by simp) _ _ hs).bind (.expect hs ((he _ (by simp) _ _ hr).bind (.expect hr ?_)))
    exact (hbody rest hrest).last (by rw [desugarFor_eq])
  exact .expect hl (hi Stmt (fun i => do
      let condition ← Grammar.optional .semicolon (Grammar.expression n)
      let _ ← Rule.expect .semicolon "Expect ';' after loop condition."
      let increment ← Grammar.optional .rightParen (Grammar.expression n)
      let _ ← Rule.expect .rightParen "Expect ')' after for clauses."
      let body ← Grammar.statement n
      pure (desugarFor i condition increment body)) _ _ _ hclauses)

theorem ifThen (hk : keyword.kind = .kwIf) (hl : lpar.kind = .leftParen)
    (hc : (expression c).Read n us) (hr : rpar.kind = .rightParen)
    (hs : (statement dangling s).Read n ts) :
    (statement true (.ifElse c s .missing)).Read (n + 1)
      (keyword :: lpar :: (us ++ rpar :: ts)) := by
  intro rest hrest
  refine .accepted (by simp [hk]) ?_
  simp only [hk]
  refine .expect hl ((hc _ (.cons (by rw [hr]; decide))).bind (.expect hr ?_))
  rw [← List.append_nil ts]
  exact (hs rest fun _ => hrest rfl).bind (.declined (hrest rfl) leads_pure)

theorem ifElse (hk : keyword.kind = .kwIf) (hl : lpar.kind = .leftParen)
    (hc : (expression c).Read n us) (hr : rpar.kind = .rightParen)
    (hs : (statement false s).Read n ts) (he : els.kind = .kwElse)
    (ht : (statement dangling t).Read n vs) :
    (statement dangling (.ifElse c s t)).Read (n + 1)
      (keyword :: lpar :: (us ++ rpar :: (ts ++ els :: vs))) := by
  intro rest hrest
  refine .accepted (by simp [hk]) ?_
  simp only [hk]
  exact .expect hl <| (hc _ (.cons (by rw [hr]; decide))).bind <| .expect hr <|
    (hs _ nofun).bind <| .accepted (by simp [he]) ((ht rest hrest).last rfl)

theorem print (hk : keyword.kind = .kwPrint) (h : (expression e).Read n ts)
    (hs : semicolon.kind = .semicolon) :
    (statement false (.print e)).Read (n + 1) (keyword :: (ts ++ [semicolon])) := by
  intro rest hrest
  refine .accepted (by simp [hk]) ?_
  simp only [hk]
  exact (h _ (.cons (by rw [hs]; decide))).bind ((leads_expect hs).last rfl)

theorem returning (hk : keyword.kind = .kwReturn) (h : (optional e).Read n ts)
    (hs : semicolon.kind = .semicolon) :
    (statement false (.returning keyword e)).Read (n + 1) (keyword :: (ts ++ [semicolon])) := by
  intro rest hrest
  refine .accepted (by simp [hk]) ?_
  simp only [hk]
  exact (h _ (by simp) _ _ hs).bind ((leads_expect hs).last rfl)

theorem whileLoop (hk : keyword.kind = .kwWhile) (hl : lpar.kind = .leftParen)
    (hc : (expression c).Read n us) (hr : rpar.kind = .rightParen)
    (hs : (statement dangling s).Read n ts) :
    (statement dangling (.whileLoop c s)).Read (n + 1) (keyword :: lpar :: (us ++ rpar :: ts)) := by
  intro rest hrest
  refine .accepted (by simp [hk]) ?_
  simp only [hk]
  exact .expect hl <| (hc _ (.cons (by rw [hr]; decide))).bind <| .expect hr <|
    (hs rest hrest).last rfl

/-- Declarations are read up to the brace that closes them. -/
theorem braced {ds : Row Stmt} (hds : ∀ d ∈ ds, (declaration d.1).Read n d.2)
    (hstarts : ∀ d ∈ ds, Begins declarationStarts d.2) (hr : rb.kind = .rightBrace) :
    Leads (Grammar.block (Grammar.declaration n)) (ds.tokens ++ [rb]) ds.trees rest :=
  (leads_piecesUntil hstarts (by decide) (by decide) hds (.cons (by rw [hr]; decide))
    (.inr (.cons (by simp [hr])))).bind ((leads_expect hr).last rfl)

theorem block {ds : Row Stmt} (hl : lb.kind = .leftBrace)
    (hds : ∀ d ∈ ds, (declaration d.1).Read n d.2)
    (hstarts : ∀ d ∈ ds, Begins declarationStarts d.2) (hr : rb.kind = .rightBrace) :
    (statement false (.block ds.trees)).Read (n + 1) (lb :: (ds.tokens ++ [rb])) := by
  intro rest hrest
  refine .accepted (by simp [hl]) ?_
  simp only [hl]
  exact (braced hds hstarts hr).last rfl

/-! ### Declarations -/

theorem leads_recovering (h : Leads p ts s rest) :
    Leads (recovering p) ts s rest := fun stop made => by
  rw [recovering, h stop made]

theorem callable {ps : Row Token} {ds : Row Stmt} (hn : name.kind = .identifier)
    (hl : lpar.kind = .leftParen) (hps : ∀ p ∈ ps, p.1.kind = .identifier ∧ p.2 = [p.1])
    (hcommas : ps.Commas us) (hle : ps.length ≤ 255) (hr : rpar.kind = .rightParen)
    (hb : lb.kind = .leftBrace) (hds : ∀ d ∈ ds, (declaration d.1).Read n d.2)
    (hstarts : ∀ d ∈ ds, Begins declarationStarts d.2) (he : rb.kind = .rightBrace) :
    (function (.mk name ps.trees ds.trees)).Read n
      (name :: lpar :: (us ++ rpar :: lb :: (ds.tokens ++ [rb]))) := by
  intro kind rest
  have hnames : ∀ p ∈ ps, Begins [.identifier] p.2 := by
    intro p hp
    obtain ⟨hk, hts⟩ := hps p hp
    rw [hts]
    exact .cons (by simp [hk])
  have hparameters : Leads (commaList "Can't have more than 255 parameters."
      (Rule.expect .identifier "Expect parameter name.")) us ps.trees
      (rpar :: (lb :: (ds.tokens ++ [rb]) ++ rest)) := by
    refine leads_commaList hcommas hnames (by decide) (fun p hp t rest _ => ?_) hle hr
    obtain ⟨hk, hts⟩ := hps p hp
    rw [hts]
    exact leads_expect hk
  exact .expect hn <| .expect hl <| hparameters.bind <| .expect hr <| .expect hb <|
    (braced hds hstarts he).last rfl

theorem classDecl {ms : Row Function} (hk : keyword.kind = .kwClass) (hn : name.kind = .identifier)
    (hs : Superclass superclass us) (hl : lb.kind = .leftBrace)
    (hms : ∀ m ∈ ms, (function m.1).Read n m.2) (hstarts : ∀ m ∈ ms, Begins [.identifier] m.2)
    (hr : rb.kind = .rightBrace) :
    (declaration (.classDecl name superclass ms.trees)).Read (n + 1)
      (keyword :: name :: (us ++ lb :: (ms.tokens ++ [rb]))) := by
  intro rest _
  have hbody : Leads (do
      let _ ← Rule.expect .leftBrace "Expect '\x7b' before class body."
      let methods ← piecesUntil [.rightBrace]
        (Grammar.function "method" (Grammar.declaration n))
      let _ ← Rule.expect .rightBrace "Expect '\x7d' after class body."
      pure (Stmt.classDecl name superclass methods)) (lb :: (ms.tokens ++ [rb]))
      (.classDecl name superclass ms.trees) rest := by
    have hclear : Clear [] (rb :: rest) := .cons nofun
    have hmethods : Leads (piecesUntil [.rightBrace]
        (Grammar.function "method" (Grammar.declaration n))) ms.tokens ms.trees (rb :: rest) :=
      leads_piecesUntil hstarts (by decide) (fun _ _ => List.not_mem_nil)
        (fun m hm rest _ => hms m hm _ rest) hclear
        (.inr (.cons (by simp [hr])))
    exact .expect hl (hmethods.bind ((leads_expect hr).last rfl))
  refine leads_recovering (.accepted (by simp [hk]) ?_)
  simp only [hk]
  refine .expect hn ?_
  cases hs with
  | none => exact .declined (.cons (by simp [hl])) hbody
  | some hless ht => exact .accepted (by simp [hless]) (.expect ht hbody)

theorem funDecl (hk : keyword.kind = .kwFun) (h : (function f).Read n ts) :
    (declaration (.function f)).Read (n + 1) (keyword :: ts) := by
  intro rest _
  refine leads_recovering (.accepted (by simp [hk]) ?_)
  simp only [hk]
  exact (h _ _).last rfl

theorem varDeclaration (hk : keyword.kind = .kwVar) (h : (varDecl s).Read n ts) :
    (declaration s).Read (n + 1) (keyword :: ts) := by
  intro rest _
  refine leads_recovering (.accepted (by simp [hk]) ?_)
  simp only [hk]
  exact h rest

theorem of_statement (h : (statement dangling s).Read n ts) (hstarts : Begins statementStarts ts) :
    (declaration s).Read (n + 1) ts :=
  fun rest hrest => leads_recovering
    (.declined (.of_begins hstarts (by decide)) (h rest fun _ => hrest))

end Nonterminal.Read

/-- What is derived is read. -/
theorem Derives.read (h : Derives n x ts) : x.Read n ts := by
  induction h with
  | program hds ih =>
    exact leads_piecesUntil (fun d hd => (hds d hd).begins _ rfl) (by decide) (by decide) ih nofun
      (.inl rfl)
  | classDecl hk hn hs hl hms hr ih =>
    exact .classDecl hk hn hs hl ih (fun m hm => (hms m hm).begins _ rfl) hr
  | funDecl hk _ ih => exact .funDecl hk ih
  | varDeclaration hk _ ih => exact .varDeclaration hk ih
  | statement h ih => exact .of_statement ih (h.begins _ rfl)
  | function hn hl hps hc hle hr hb hds he ih =>
    exact .callable hn hl hps hc hle hr hb ih (fun d hd => (hds d hd).begins _ rfl) he
  | varDecl hn hs => exact .uninitialized hn hs
  | varInitializer hn he _ hs ih => exact .initialized hn he ih hs
  | plain h ih => exact .plain ih (h.begins _ rfl)
  | forLoop hk hl _ _ hs _ hr _ hi hc he ih => exact .forLoop hk hl hi hc hs he hr ih
  | ifThen hk hl _ hr _ hc ih => exact .ifThen hk hl hc hr ih
  | ifElse hk hl _ hr _ he _ hc hs ht => exact .ifElse hk hl hc hr hs he ht
  | print hk _ hs ih => exact .print hk ih hs
  | returning hk _ hs ih => exact .returning hk ih hs
  | whileLoop hk hl _ hr _ hc ih => exact .whileLoop hk hl hc hr ih
  | block hl hds hr ih => exact .block hl ih (fun d hd => (hds d hd).begins _ rfl) hr
  | expressionStatement _ hs ih => exact .evaluation ih hs
  | noInitializer hs => exact .noInitializer hs
  | declared hk _ ih => exact .declared hk ih
  | evaluated h ih => exact .evaluated ih (h.begins _ rfl)
  | absent => exact .absent
  | present h ih => exact .present ih (h.begins _ rfl)
  | assign hn he _ ih =>
    exact (Nonterminal.Read.called (.of_primary (.named hn))
      (.cons (by rw [hn]; decide))).assignment he ih rfl
  | set ho hd hn he _ iho ihv =>
    have hproperty := Nonterminal.Read.called (iho.get hd hn) (ho.begins _ rfl).append
    simpa using hproperty.assignment he ihv rfl
  | expression _ ih => exact .of_level ih
  | operand _ ih => exact .of_operand ih
  | operator _ hop _ hl hr => exact .operator hl hop hr
  | unary hop _ ih => exact .unary_operator hop ih
  | called h ih => exact .called ih (h.begins _ rfl)
  | primary _ ih => exact .of_primary ih
  | call _ hl has hc hle hr hf ih =>
    exact .call_arguments hf hl ih (fun a ha => (has a ha).begins _ rfl) hc hle hr
  | get _ hd hn ih => exact .get ih hd hn
  | constant h => exact .constant h
  | this hk => exact .this hk
  | named hn => exact .named hn
  | grouping hl _ hr ih => exact .grouping hl ih hr
  | super hk hd hn => exact .super hk hd hn

end Grammar

end LoxLang
