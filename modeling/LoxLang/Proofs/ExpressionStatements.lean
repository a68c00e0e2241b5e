import LoxLang.Proofs.Echo

/-!
# Expressions and expression statements

Some tokens are an expression exactly if, with a semicolon behind them, they are a program of one
statement that is an expression, and then it is the same expression
(`readExpression_iff_readProgram`). The statement is nested two deeper, since it is read as a
declaration and as a statement before it is read as an expression.
-/

namespace LoxLang.Grammar

/-! ## Derivations -/

theorem expression_ne_behind (e : Expr) (i : Option Stmt) (c : Expr) (s : Stmt) :
    .expression e ≠ behind i (.whileLoop c s) := by
  cases i <;> nofun

theorem Derives.declaration_of_expression (h : Derives n (.expression e) ts)
    (hs : semicolon.kind = .semicolon) :
    Derives (n + 2) (.declaration (.expression e)) (ts ++ [semicolon]) :=
  .statement (.plain (.expressionStatement h hs))

/-- Only an expression with a semicolon derives a statement that is one: no loop becomes one, and no
other statement has such a tree. -/
theorem Derives.expression_of_declaration
    (h : Derives (n + 2) (.declaration (.expression e)) us) :
    ∃ ts semicolon, us = ts ++ [semicolon] ∧ Derives n (.expression e) ts := by
  cases h with
  | varDeclaration _ h => nomatch h
  | statement h =>
    generalize hs : Stmt.expression e = s at h
    cases h with
    | plain h =>
      subst hs
      cases h with
      | expressionStatement h _ => exact ⟨_, _, rfl, h⟩
    | forLoop => exact absurd hs (expression_ne_behind _ _ _ _)
    | _ => cases hs

theorem Derives.program_singleton_iff :
    Derives n (.program [s]) ts ↔ Derives n (.declaration s) ts := by
  constructor
  · intro h
    generalize hp : Nonterminal.program [s] = x at h
    cases h with
    | @program n ds hds =>
      injection hp with htrees
      obtain ⟨d, rfl, rfl⟩ := List.map_eq_singleton_iff.1 htrees.symm
      rw [Row.tokens, List.flatMap_singleton]
      exact hds d List.mem_cons_self
    | _ => cases hp
  · intro h
    have hd : ∀ d ∈ [(s, ts)], Derives n (.declaration d.1) d.2 := List.forall_mem_singleton.2 h
    simpa [Row.trees, Row.tokens] using Derives.program hd

theorem derives_expression_iff (hs : semicolon.kind = .semicolon) :
    Derives n (.expression e) ts ↔
      Derives (n + 2) (.program [.expression e]) (ts ++ [semicolon]) := by
  rw [Derives.program_singleton_iff]
  refine ⟨fun h => h.declaration_of_expression hs, fun h => ?_⟩
  obtain ⟨us, last, htokens, h⟩ := h.expression_of_declaration
  rwa [(List.append_inj' htokens rfl).1]

/-! ## Readings -/

/-- With less room an expression is read as with more, or it is nested too deeply. -/
theorem readExpression_of_le (hts : ∀ t ∈ ts, t.kind ≠ .eof) (hstop : stop.kind = .eof)
    (hle : n ≤ m) : (readExpression n (ts ++ [stop])).value? = none ∨
      readExpression n (ts ++ [stop]) = readExpression m (ts ++ [stop]) := by
  have hbelow : Rule.Below (wholeExpression n) (wholeExpression m) :=
    (below_of_succ (fun room => (below_expression_unary room).1) hle).before
  rw [readExpression, readExpression, run_of_ends hts hstop, run_of_ends hts hstop]
  rcases hbelow stop ⟨ts, []⟩ with ⟨made, hdeep⟩ | hsame
  · exact .inl (by rw [hdeep]; rfl)
  · exact .inr (by rw [hsame])

section

variable {ts : List Token} {stop : Token} (hts : ∀ t ∈ ts, t.kind ≠ .eof)
  (hstop : stop.kind = .eof)

include hts hstop

theorem readExpression_iff :
    readExpression room (ts ++ [stop]) = .finished (some e) [] ↔
      Derives room (.expression e) ts :=
  ⟨derives_of_readExpression hts hstop, fun h => readExpression_of_derives h (Nat.le_refl _) hstop⟩

theorem readProgram_iff :
    readProgram room (ts ++ [stop]) = .finished ss [] ↔ Derives room (.program ss) ts :=
  ⟨derives_of_readProgram hts hstop, fun h => readProgram_of_derives h (Nat.le_refl _) hstop⟩

/-- Where one room is enough, what is read without a report there is read elsewhere too, unless the
room is not enough. -/
theorem readExpression_iff_exists (h : (readExpression n (ts ++ [stop])).value? ≠ none) :
    readExpression n (ts ++ [stop]) = .finished (some e) [] ↔
      ∃ m, Derives m (.expression e) ts := by
  refine ⟨fun hread => ⟨n, (readExpression_iff hts hstop).1 hread⟩, fun ⟨m, hd⟩ => ?_⟩
  rw [(readExpression_of_le hts hstop (Nat.le_max_left n m)).resolve_left h]
  exact readExpression_of_derives hd (Nat.le_max_right n m) hstop

theorem readProgram_iff_exists (h : (readProgram n (ts ++ [stop])).value? ≠ none) :
    readProgram n (ts ++ [stop]) = .finished ss [] ↔ ∃ m, Derives m (.program ss) ts := by
  refine ⟨fun hread => ⟨n, (readProgram_iff hts hstop).1 hread⟩, fun ⟨m, hd⟩ => ?_⟩
  rw [(readProgram_of_le hts hstop (Nat.le_max_left n m)).resolve_left h]
  exact readProgram_of_derives hd (Nat.le_max_right n m) hstop

end

/-- Tokens are read as an expression without a report exactly if, with a semicolon behind them, they
are read as a program of one statement without a report, which is the expression. The program needs
room for two more; whatever the rooms are, the readings agree unless one of them is stopped. -/
theorem readExpression_iff_readProgram (hts : ∀ t ∈ ts, t.kind ≠ .eof)
    (hstop : stop.kind = .eof) (hsemicolon : semicolon.kind = .semicolon) (hlast : last.kind = .eof)
    (e : Expr) :
    (∀ room, readExpression room (ts ++ [stop]) = .finished (some e) [] ↔
      readProgram (room + 2) (ts ++ [semicolon, last]) = .finished [.expression e] []) ∧
    ∀ n m, (readExpression n (ts ++ [stop])).value? ≠ none →
      (readProgram m (ts ++ [semicolon, last])).value? ≠ none →
      (readExpression n (ts ++ [stop]) = .finished (some e) [] ↔
        readProgram m (ts ++ [semicolon, last]) = .finished [.expression e] []) := by
  have hboth : ∀ t ∈ ts ++ [semicolon], t.kind ≠ .eof :=
    List.forall_mem_append.2 ⟨hts, List.forall_mem_singleton.2 (by rw [hsemicolon]; decide)⟩
  rw [List.append_cons ts semicolon [last]]
  refine ⟨fun room => ?_, fun n m hn hm => ?_⟩
  · rw [readExpression_iff hts hstop, readProgram_iff hboth hlast,
      derives_expression_iff hsemicolon]
  · rw [readExpression_iff_exists hts hstop hn, readProgram_iff_exists hboth hlast hm]
    constructor
    · exact fun ⟨k, hd⟩ => ⟨k + 2, (derives_expression_iff hsemicolon).1 hd⟩
    · exact fun ⟨k, hd⟩ => ⟨k, (derives_expression_iff hsemicolon).2 hd.succ.succ⟩

/-- An assignment to a property, with a call and an operator in parentheses on its right. -/
theorem readExpression_iff_readProgram_of_assignment :
    ∃ ts stop e, (scan "o.p = -f(1, x) or (2)".toList).tokens = ts ++ [stop] ∧
      (∀ t ∈ ts, t.kind ≠ .eof) ∧ stop.kind = .eof ∧
      (⟨.semicolon, ";", none, 1, 22⟩ : Token).kind = .semicolon ∧
      readExpression 9 (ts ++ [stop]) = .finished (some e) [] ∧
      readProgram 11 (ts ++ [⟨.semicolon, ";", none, 1, 22⟩, stop]) =
        .finished [.expression e] [] := by
  obtain ⟨ts, hends, hts⟩ := scan_ends "o.p = -f(1, x) or (2)".toList
  have hread : (readExpression 9 (scan "o.p = -f(1, x) or (2)".toList).tokens).value?.join.isSome ∧
      (readExpression 9 (scan "o.p = -f(1, x) or (2)".toList).tokens).reports = [] := by
    decide +kernel
  obtain ⟨e, he⟩ := Option.isSome_iff_exists.1 hread.1
  have hread := Reading.finished_of_value? (Option.join_eq_some_iff.1 he) hread.2
  rw [hends] at hread
  have hstop : (Token.endOf "o.p = -f(1, x) or (2)".toList).kind = .eof := rfl
  have hsemicolon : (⟨.semicolon, ";", none, 1, 22⟩ : Token).kind = .semicolon := rfl
  have hiff := readExpression_iff_readProgram hts hstop hsemicolon hstop e
  exact ⟨ts, _, e, hends, hts, hstop, hsemicolon, hread, (hiff.1 9).1 hread⟩

end LoxLang.Grammar
