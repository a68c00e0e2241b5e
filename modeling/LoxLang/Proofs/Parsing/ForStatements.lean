import LoxLang.Proofs.ExpressionStatements
import LoxLang.Proofs.Parsing.Contents
import LoxLang.Proofs.Parsing.Written
import LoxLang.Proofs.Piecewise.Resolving
import LoxLang.Proofs.Scopes

/-!
# For statements by hand

The clauses of a `for` statement are tokens; put together by hand they are the `while` statement
that one would write in its place: a loop with the increment behind its body in a block, and the
initializer in front of it in another one (`Clauses.byHand`). It is read as the tree of the `for`
statement (`Derive.readProgram_byHand`).
-/

namespace LoxLang

/-- The parts of a loop as a `for` statement gives them. -/
structure ForLoop where
  initializer : Option Stmt
  condition : Expr
  increment : Option Expr
  body : Stmt

namespace ForLoop

open Grammar

/-- What is done in one turn. -/
def turn (L : ForLoop) : Stmt := followed L.body L.increment

def loop (L : ForLoop) : Stmt := .whileLoop L.condition L.turn

def tree (L : ForLoop) : Stmt := behind L.initializer L.loop

theorem tree_of_initializer {L : ForLoop} (hi : L.initializer = some i) :
    L.tree = .block [i, L.loop] := by
  rw [tree, hi]
  rfl

/-! ## Resolution -/

/-- The parts are resolved where they stand: the loop in a scope of its own if there is an
initializer, and a turn in another one if there is an increment. -/
def resolve (around : Enclosing) (scopes : List Scope) (L : ForLoop) : ForLoop :=
  let initializer := L.initializer.map (·.resolve around ([] :: scopes))
  let outer := (initializer.map (·.scopes)).getD scopes
  let body := L.body.resolve around (if L.increment.isSome then [] :: outer else outer)
  { initializer := initializer.map (·.tree)
    condition := (L.condition.resolve around outer).1
    increment := L.increment.map fun e => (e.resolve around body.scopes).1
    body := body.tree }

/-- A loop is resolved part by part. -/
theorem tree_resolve (around : Enclosing) (scopes : List Scope) (L : ForLoop) :
    (L.tree.resolve around scopes).tree = (L.resolve around scopes).tree := by
  obtain ⟨initializer, condition, increment, body⟩ := L
  cases initializer <;> cases increment <;> rfl

theorem declared_tree {L : ForLoop} (h : L.body.declared = []) : L.tree.declared = [] := by
  obtain ⟨initializer, condition, increment, body⟩ := L
  cases initializer with
  | some i => rfl
  | none =>
    cases increment with
    | some e => rfl
    | none => exact h

/-- A loop leaves the scopes around it as they were. -/
theorem scopes_resolve {L : ForLoop} (h : L.body.declared = []) (around : Enclosing)
    (scopes : List Scope) : (L.tree.resolve around scopes).scopes = scopes := by
  rw [Stmt.scopes_resolve, declared_tree h]
  rfl

end ForLoop

namespace Grammar

/-- The tokens of the clauses of a `for` statement and of its body, without what stands between
them. The initializer has its semicolon; a clause without tokens is missing. -/
structure Clauses where
  initializer : List Token
  condition : List Token
  increment : List Token
  body : List Token

namespace Clauses

/-- The tokens are the `for` statement with these clauses. -/
inductive IsFor (k : Clauses) : List Token → Prop where
  | initialized : k.initializer ≠ [] → keyword.kind = .kwFor → lpar.kind = .leftParen →
    semicolon.kind = .semicolon → rpar.kind = .rightParen →
    IsFor k (keyword :: lpar :: (k.initializer ++
      (k.condition ++ semicolon :: (k.increment ++ rpar :: k.body))))
  | bare : k.initializer = [] → keyword.kind = .kwFor → lpar.kind = .leftParen →
    first.kind = .semicolon → semicolon.kind = .semicolon → rpar.kind = .rightParen →
    IsFor k (keyword :: lpar :: first ::
      (k.condition ++ semicolon :: (k.increment ++ rpar :: k.body)))

/-- The clauses derive the parts of a loop, of which a missing condition is true. -/
structure Derive (n : Nat) (k : Clauses) (L : ForLoop) : Prop where
  initializer : k.initializer = [] ∧ L.initializer = none ∨
    ∃ i, L.initializer = some i ∧ Derives n (.initializer (some i)) k.initializer
  condition : ∃ c, Derives n (.optional c) k.condition ∧
    L.condition = c.getD (.literal (.bool true))
  increment : Derives n (.optional L.increment) k.increment
  body : ∃ dangling, Derives n (.statement dangling L.body) k.body

/-- The body with the increment behind it, in braces if there is one. -/
def turn (k : Clauses) : List Token :=
  if k.increment = [] then k.body
  else .word .leftBrace "\x7b" :: (k.body ++
    (k.increment ++ [.word .semicolon ";", .word .rightBrace "\x7d"]))

/-- The `while` statement; `true` stands for a missing condition. -/
def loop (k : Clauses) : List Token :=
  .word .kwWhile "while" :: .word .leftParen "(" ::
    ((if k.condition = [] then [.word .kwTrue "true"] else k.condition) ++
      .word .rightParen ")" :: k.turn)

/-- The loop with the initializer in front of it, in braces if there is one. -/
def byHand (k : Clauses) : List Token :=
  if k.initializer = [] then k.loop
  else .word .leftBrace "\x7b" :: (k.initializer ++ (k.loop ++ [.word .rightBrace "\x7d"]))

end Clauses

/-! ## The clauses of a `for` statement -/

/-- No other statement begins with the keyword. -/
theorem Derives.exists_clauses (h : Derives (n + 1) (.statement dangling t) (keyword :: us))
    (hk : keyword.kind = .kwFor) :
    ∃ (k : Clauses) (L : ForLoop), k.IsFor (keyword :: us) ∧ k.Derive n L := by
  generalize hts : keyword :: us = ts at h
  cases h with
  | plain h =>
    obtain ⟨t, vs, rfl, ht⟩ := h.begins _ rfl
    cases hts
    rw [hk] at ht
    exact absurd ht (by decide)
  | forLoop hkeyword hlpar hi hc hsemicolon he hrpar hs =>
    cases hi with
    | noInitializer hfirst =>
      exact ⟨⟨[], _, _, _⟩, ⟨none, _, _, _⟩, .bare rfl hkeyword hlpar hfirst hsemicolon hrpar,
        ⟨.inl ⟨rfl, rfl⟩, ⟨_, hc, rfl⟩, he, _, hs⟩⟩
    | declared hvar hi =>
      exact ⟨⟨_, _, _, _⟩, ⟨some _, _, _, _⟩,
        .initialized (List.cons_ne_nil _ _) hkeyword hlpar hsemicolon hrpar,
        ⟨.inr ⟨_, rfl, .declared hvar hi⟩, ⟨_, hc, rfl⟩, he, _, hs⟩⟩
    | evaluated hi =>
      obtain ⟨first, more, rfl, -⟩ := hi.begins _ rfl
      exact ⟨⟨_, _, _, _⟩, ⟨some _, _, _, _⟩,
        .initialized (List.cons_ne_nil _ _) hkeyword hlpar hsemicolon hrpar,
        ⟨.inr ⟨_, rfl, .evaluated hi⟩, ⟨_, hc, rfl⟩, he, _, hs⟩⟩
  | _ =>
    cases hts
    simp_all

/-- A statement declares nothing where it stands. -/
theorem Derives.declared_eq_nil (h : Derives n (.statement dangling t) ts) : t.declared = [] := by
  generalize hx : Nonterminal.statement dangling t = x at h
  induction h generalizing dangling t with
  | plain h =>
    cases hx
    cases h
    rfl
  | forLoop _ _ _ _ _ _ _ _ _ _ _ ih =>
    cases hx
    have hbody := ih rfl
    exact ForLoop.declared_tree (L := ⟨_, _, _, _⟩) hbody
  | ifThen _ _ _ _ _ _ ih =>
    cases hx
    simp [Stmt.declared, ih rfl]
  | ifElse _ _ _ _ _ _ _ _ ihs iht =>
    cases hx
    simp [Stmt.declared, ihs rfl, iht rfl]
  | whileLoop _ _ _ _ _ _ ih =>
    cases hx
    have hbody := ih rfl
    exact hbody
  | print | returning | block =>
    cases hx
    rfl
  | _ => cases hx

/-- A `for` statement is derived from its clauses. -/
theorem Clauses.Derive.statement {k : Clauses} {L : ForLoop} (h : k.Derive n L)
    (hfor : k.IsFor ts) : ∃ dangling, Derives (n + 1) (.statement dangling L.tree) ts := by
  obtain ⟨initializer, condition, increment, body⟩ := L
  obtain ⟨c, hc, hcondition⟩ := h.condition
  obtain ⟨dangling, hbody⟩ := h.body
  obtain rfl : condition = _ := hcondition
  refine ⟨dangling, ?_⟩
  rcases h.initializer with ⟨hnone, hi⟩ | ⟨i, hi, hderives⟩
  · obtain rfl : initializer = none := hi
    cases hfor with
    | initialized hne => exact absurd hnone hne
    | bare _ hkeyword hlpar hfirst hsemicolon hrpar =>
      exact .forLoop hkeyword hlpar (.noInitializer hfirst) hc hsemicolon h.increment hrpar hbody
  · obtain rfl : initializer = some i := hi
    cases hfor with
    | initialized _ hkeyword hlpar hsemicolon hrpar =>
      exact .forLoop hkeyword hlpar hderives hc hsemicolon h.increment hrpar hbody
    | bare hnone =>
      obtain ⟨t, us, hts, -⟩ := hderives.begins _ rfl
      rw [hnone] at hts
      cases hts

/-- No tokens are two statements. -/
theorem Derives.statement_unique (h : Derives n (.statement d t) ts)
    (h' : Derives m (.statement d' t') ts) : t = t' := by
  have hone := Derives.program_singleton_iff.2 (Derives.statement h)
  have hother := Derives.program_singleton_iff.2 (Derives.statement h')
  exact (List.cons.inj (hone.program_unique hother)).1

/-- A `for` statement that is read without a report has clauses, and whatever clauses it has, its
tree is that of their loop. -/
theorem clauses_of_read (hk : keyword.kind = .kwFor)
    (h : statement (n + 1) stop ⟨keyword :: us, made⟩ = .read t ⟨rest, made⟩) :
    ∃ ts, keyword :: us = ts ++ rest ∧ (∃ (k : Clauses) (L : ForLoop), k.IsFor ts ∧ k.Derive n L) ∧
      ∀ (k : Clauses) (L : ForLoop), k.IsFor ts → k.Derive n L → t = L.tree := by
  have hsound := (sound_declaration_statement (n + 1)).2 stop ⟨keyword :: us, made⟩
  rw [h] at hsound
  obtain ⟨ts, hts, dangling, hderives, -⟩ := hsound.2 rfl
  refine ⟨ts, hts, ?_, fun k L hfor hL => ?_⟩
  · obtain ⟨first, more, rfl, -⟩ := hderives.begins _ rfl
    obtain ⟨rfl, -⟩ := List.cons.inj hts
    exact hderives.exists_clauses hk
  · obtain ⟨_, hL⟩ := hL.statement hfor
    exact hderives.statement_unique hL

/-! ## The loop put together by hand -/

/-- The initializer of a loop can stand by itself. -/
theorem Derives.declaration_of_initializer (h : Derives n (.initializer (some i)) ts) :
    Derives (n + 2) (.declaration i) ts := by
  cases h with
  | declared hk h => exact .succ (.varDeclaration hk h)
  | evaluated h => exact .statement (.plain h)

/-- Two declarations in braces. -/
theorem Derives.block_pair (hl : lb.kind = .leftBrace) (hs : Derives n (.declaration s) ts)
    (ht : Derives n (.declaration t) us) (hr : rb.kind = .rightBrace) :
    Derives (n + 1) (.statement false (.block [s, t])) (lb :: (ts ++ (us ++ [rb]))) := by
  have hds : ∀ d ∈ [(s, ts), (t, us)], Derives n (.declaration d.1) d.2 :=
    List.forall_mem_cons.2 ⟨hs, List.forall_mem_singleton.2 ht⟩
  simpa [Row.trees, Row.tokens] using Derives.block hl hds hr

namespace Clauses

variable {k : Clauses} {L : ForLoop}

theorem Derive.turn (h : k.Derive n L) :
    ∃ dangling, Derives (n + 3) (.statement dangling L.turn) k.turn := by
  obtain ⟨dangling, hbody⟩ := h.body
  have he := h.increment
  unfold ForLoop.turn Clauses.turn
  generalize hi : L.increment = e at he
  generalize hts : k.increment = ts at he
  cases he with
  | absent => exact ⟨dangling, hbody.mono (by omega)⟩
  | present he =>
    obtain ⟨t, us, rfl, -⟩ := he.begins _ rfl
    have hsemicolon : (Token.word .semicolon ";").kind = .semicolon := rfl
    have hl : (Token.word .leftBrace "\x7b").kind = .leftBrace := rfl
    have hr : (Token.word .rightBrace "\x7d").kind = .rightBrace := rfl
    have hincrement : Derives (n + 2) (.declaration (.expression _)) _ :=
      .statement (.plain (.expressionStatement he hsemicolon))
    refine ⟨false, ?_⟩
    rw [if_neg (List.cons_ne_nil _ _)]
    simpa [followed] using Derives.block_pair hl (.statement hbody.succ) hincrement hr

theorem Derive.loop (h : k.Derive n L) :
    ∃ dangling, Derives (n + 4) (.statement dangling L.loop) k.loop := by
  obtain ⟨dangling, hturn⟩ := h.turn
  obtain ⟨c, hc, hcondition⟩ := h.condition
  have htest : Derives (n + 3) (.expression L.condition)
      (if k.condition = [] then [.word .kwTrue "true"] else k.condition) := by
    rw [hcondition]
    generalize k.condition = ts at hc
    cases hc with
    | absent =>
      have htrue : Derives n (.primary (.literal (.bool true))) [.word .kwTrue "true"] :=
        .constant (.true rfl)
      exact (Derives.expression_of_unary (.called (.primary htrue))).succ
    | present hc =>
      obtain ⟨t, us, rfl, -⟩ := hc.begins _ rfl
      exact hc.mono (by omega)
  exact ⟨dangling, .whileLoop rfl rfl htest rfl hturn⟩

theorem Derive.byHand (h : k.Derive n L) : Derives (n + 7) (.program [L.tree]) k.byHand := by
  obtain ⟨dangling, hloop⟩ := h.loop
  rw [Derives.program_singleton_iff]
  unfold ForLoop.tree Clauses.byHand
  rcases h.initializer with ⟨hnone, hi⟩ | ⟨i, hi, hderives⟩
  · rw [hi, if_pos hnone]
    exact (Derives.statement hloop).mono (by omega)
  · have hne : k.initializer ≠ [] := by
      obtain ⟨t, us, ht, -⟩ := hderives.begins _ rfl
      rw [ht]
      exact List.cons_ne_nil _ _
    rw [hi, if_neg hne]
    exact .statement (.block_pair rfl ((hderives.declaration_of_initializer).mono (by omega))
      (.statement hloop) rfl)

/-- Tokens with the contents of the loop put together by hand are read as the same tree, apart from
places. -/
theorem Derive.readProgram_byHand (h : k.Derive n L) (hle : n + 7 ≤ room)
    (hts : ts.map Token.content = k.byHand.map Token.content) (hstop : stop.kind = .eof) :
    ∃ t, readProgram room (ts ++ [stop]) = .finished [t] [] ∧ StmtMatches .content L.tree t := by
  have hcontents : (ts ++ [stop]).map Token.content = (k.byHand ++ [stop]).map Token.content := by
    rw [List.map_append, List.map_append, hts]
  have halike := readProgram_alike room hcontents
  rw [readProgram_of_derives h.byHand hle hstop] at halike
  generalize readProgram room (ts ++ [stop]) = reading at halike ⊢
  cases halike with
  | @finished _ trees _ reports htrees hreports =>
    obtain ⟨t, more, ht, hmore, rfl⟩ := List.forall₂_cons_left_iff.1 htrees
    obtain rfl := List.forall₂_nil_left_iff.1 hmore
    obtain rfl := List.map_eq_nil_iff.1 hreports
    exact ⟨t, rfl, ht⟩

end Clauses

end Grammar

end LoxLang
