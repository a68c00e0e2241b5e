import LoxLang.Proofs.Parsing.Complete

/-!
# Trees written out as tokens

An expression respects the levels of precedence when an operand that binds looser than its place
allows stands in parentheses (`Expr.Respects`). Such an expression is derived from the tokens that
it is written with (`exists_derives_written`), so reading them gives it back (`derived_text_read`).
What is derived has no other tree (`Derives.expression_unique`).
-/

namespace LoxLang

open Grammar

/-! ## Expressions as tokens -/

/-- A token of which only the kind and the lexeme matter. -/
def Token.word (kind : TokenKind) (lexeme : String) : Token := ⟨kind, lexeme, none, 1, 1⟩

/-- The literal of a constant. -/
def Constant.token : Constant → Token
  | nil => .word .kwNil "nil"
  | bool true => .word .kwTrue "true"
  | bool false => .word .kwFalse "false"
  | number x => ⟨.number, Number.text x, some (.number x), 1, 1⟩
  | string s => ⟨.string, "\"" ++ s ++ "\"", some (.string s), 1, 1⟩

mutual
/-- The tokens of an expression. No parentheses are put in but those of groupings and calls. -/
def Expr.written : Expr → List Token
  | .missing => []
  | .assign target value => target.name :: .word .equal "=" :: value.written
  | .binary left operator right | .logical left operator right =>
    left.written ++ operator :: right.written
  | .call callee paren arguments =>
    callee.written ++ .word .leftParen "(" :: (writtenArguments arguments ++ [paren])
  | .get object name => object.written ++ [.word .dot ".", name]
  | .grouping inner => .word .leftParen "(" :: (inner.written ++ [.word .rightParen ")"])
  | .literal value => [value.token]
  | .set object name value =>
    object.written ++ .word .dot "." :: name :: .word .equal "=" :: value.written
  | .super keyword method => [keyword.name, .word .dot ".", method]
  | .this keyword => [keyword.name]
  | .unary operator right => operator :: right.written
  | .variable target => [target.name]
def writtenArguments : List Expr → List Token
  | [] => []
  | e :: rest => e.written ++ writtenFurther rest
def writtenFurther : List Expr → List Token
  | [] => []
  | e :: rest => .word .comma "," :: (e.written ++ writtenFurther rest)
end

/-! ## Precedence -/

/-- How tightly an operator between two operands binds. -/
def TokenKind.binding : TokenKind → Nat
  | kwOr => 1
  | kwAnd => 2
  | bangEqual | equalEqual => 3
  | greater | greaterEqual | less | lessEqual => 4
  | minus | plus => 5
  | slash | star => 6
  | _ => 0

/-- How tightly the outermost construct of an expression binds, assignments loosest. -/
def Expr.binding : Expr → Nat
  | .assign _ _ | .set _ _ _ => 0
  | .binary _ operator _ | .logical _ operator _ => operator.kind.binding
  | .unary _ _ => 7
  | _ => 8

mutual
/-- Every operand binds as tightly as its place asks for: on the left of an operator at least as
tightly as the operator, on its right tighter, and in front of a call or a property tightest. The
names and operators are tokens of the kinds that the grammar asks for. -/
def Expr.Respects : Expr → Prop
  | .missing => False
  | .assign target value =>
    (target.hops = none ∧ target.name.kind = .identifier) ∧ value.Respects
  | .binary left operator right => 3 ≤ operator.kind.binding ∧
    (operator.kind.binding ≤ left.binding ∧ left.Respects) ∧
      operator.kind.binding < right.binding ∧ right.Respects
  | .logical left operator right => operator.kind ∈ [TokenKind.kwOr, .kwAnd] ∧
    (operator.kind.binding ≤ left.binding ∧ left.Respects) ∧
      operator.kind.binding < right.binding ∧ right.Respects
  | .call callee paren arguments => (8 ≤ callee.binding ∧ callee.Respects) ∧
    paren.kind = .rightParen ∧ arguments.length ≤ 255 ∧ RespectsAll arguments
  | .get object name => (8 ≤ object.binding ∧ object.Respects) ∧ name.kind = .identifier
  | .grouping inner => inner.Respects
  | .literal _ => True
  | .set object name value => (8 ≤ object.binding ∧ object.Respects) ∧ name.kind = .identifier ∧
    value.Respects
  | .super keyword method => (keyword.hops = none ∧ keyword.name.kind = .kwSuper) ∧
    method.kind = .identifier
  | .this keyword => keyword.hops = none ∧ keyword.name.kind = .kwThis
  | .unary operator right => operator.kind ∈ [TokenKind.bang, .minus] ∧ 7 ≤ right.binding ∧
    right.Respects
  | .variable target => target.hops = none ∧ target.name.kind = .identifier
def RespectsAll : List Expr → Prop
  | [] => True
  | e :: rest => e.Respects ∧ RespectsAll rest
end

namespace Grammar

/-- What derives the expressions that bind at least so tightly. -/
def Nonterminal.binding : Nat → Expr → Nonterminal
  | 0 => .expression
  | 1 => .level .or
  | 2 => .level .and
  | 3 => .level .equality
  | 4 => .level .comparison
  | 5 => .level .term
  | 6 => .level .factor
  | 7 => .unary
  | _ => .call

theorem Derives.loosen_one (h : Derives n (.binding (b + 1) e) ts) :
    Derives (n + 1) (.binding b e) ts := by
  match b with
  | 0 => exact .expression h
  | 1 | 2 | 3 | 4 | 5 | 6 => exact (Derives.operand h).succ
  | 7 => exact .called h
  | b + 8 => exact h.succ

/-- What binds tightly may stand where looser binding is enough. -/
theorem Derives.loosen (h : Derives n (.binding b e) ts) (hle : c ≤ b) :
    ∃ m, Derives m (.binding c e) ts := by
  induction hle generalizing n with
  | refl => exact ⟨n, h⟩
  | step _ ih => exact ih h.loosen_one

theorem exists_level_binary (h : 3 ≤ TokenKind.binding op.kind) : ∃ l : Level,
    op.kind ∈ l.operators ∧ Nonterminal.binding op.kind.binding = .level l ∧
      Nonterminal.binding (op.kind.binding + 1) = l.operand ∧
      ∀ left right, l.node left op right = .binary left op right := by
  cases hk : op.kind with
  | bangEqual | equalEqual => exact ⟨.equality, by decide, rfl, rfl, fun _ _ => rfl⟩
  | greater | greaterEqual | less | lessEqual =>
    exact ⟨.comparison, by decide, rfl, rfl, fun _ _ => rfl⟩
  | minus | plus => exact ⟨.term, by decide, rfl, rfl, fun _ _ => rfl⟩
  | slash | star => exact ⟨.factor, by decide, rfl, rfl, fun _ _ => rfl⟩
  | _ => simp [hk, TokenKind.binding] at h

theorem exists_level_logical (h : op.kind ∈ [TokenKind.kwOr, .kwAnd]) : ∃ l : Level,
    op.kind ∈ l.operators ∧ Nonterminal.binding op.kind.binding = .level l ∧
      Nonterminal.binding (op.kind.binding + 1) = l.operand ∧
      ∀ left right, l.node left op right = .logical left op right := by
  simp only [List.mem_cons, List.not_mem_nil, or_false] at h
  rcases h with hk | hk <;> rw [hk]
  · exact ⟨.or, by decide, rfl, rfl, fun _ _ => rfl⟩
  · exact ⟨.and, by decide, rfl, rfl, fun _ _ => rfl⟩

theorem denotes_token (c : Constant) : Denotes c.token c := by
  match c with
  | .nil => exact .nil rfl
  | .bool true => exact .true rfl
  | .bool false => exact .false rfl
  | .number x => exact .literal (.inl rfl)
  | .string s => exact .literal (.inr rfl)

/-- Expressions as arguments, each with the tokens it is written with. -/
def writtenRow (es : List Expr) : Row Expr := es.map fun e => (e, e.written)

theorem trees_writtenRow (es : List Expr) : (writtenRow es).trees = es := by
  rw [writtenRow, Row.trees, List.map_map]
  exact List.map_id es

theorem further_writtenRow (es : List Expr) : (writtenRow es).Further (writtenFurther es) := by
  induction es with
  | nil => exact .nil
  | cons e es ih => exact .cons rfl ih

theorem commas_writtenRow (es : List Expr) : (writtenRow es).Commas (writtenArguments es) := by
  cases es with
  | nil => exact .nil
  | cons e es => exact .cons (further_writtenRow es)

/-- An operator between operands that respect their places. -/
theorem derives_operator {l : Level} (hop : op.kind ∈ l.operators)
    (hlevel : Nonterminal.binding b = .level l) (hoperand : Nonterminal.binding (b + 1) = l.operand)
    (hl : ∃ n, Derives n (.binding left.binding left) ts) (hble : b ≤ left.binding)
    (hr : ∃ n, Derives n (.binding right.binding right) us) (hblt : b < right.binding) :
    ∃ n, Derives n (.binding b (l.node left op right)) (ts ++ op :: us) := by
  obtain ⟨n, hl⟩ := hl
  obtain ⟨m, hr⟩ := hr
  obtain ⟨n, hl⟩ := hl.loosen hble
  obtain ⟨m, hr⟩ := hr.loosen hblt
  rw [hlevel] at hl ⊢
  rw [hoperand] at hr
  exact ⟨max n m, .operator (hl.mono (Nat.le_max_left ..)) hop (hr.mono (Nat.le_max_right ..))⟩

mutual
/-- An expression that respects precedence is derived from the tokens it is written with. -/
theorem exists_derives_written : ∀ e : Expr, e.Respects →
    ∃ n, Derives n (.binding e.binding e) e.written
  | .missing, h => h.elim
  | .assign ⟨name, hops⟩ value, ⟨⟨hhops, hname⟩, hvalue⟩ => by
    obtain rfl : hops = none := hhops
    obtain ⟨n, hv⟩ := exists_derives_written value hvalue
    obtain ⟨n, hv⟩ := hv.loosen (Nat.zero_le _)
    exact ⟨n + 2, .assign hname rfl hv.succ⟩
  | .binary left op right, ⟨hop, ⟨hble, hleft⟩, hblt, hright⟩ => by
    obtain ⟨l, hmem, hlevel, hoperand, hnode⟩ := exists_level_binary hop
    have h := derives_operator hmem hlevel hoperand (exists_derives_written left hleft) hble
      (exists_derives_written right hright) hblt
    rwa [hnode] at h
  | .logical left op right, ⟨hop, ⟨hble, hleft⟩, hblt, hright⟩ => by
    obtain ⟨l, hmem, hlevel, hoperand, hnode⟩ := exists_level_logical hop
    have h := derives_operator hmem hlevel hoperand (exists_derives_written left hleft) hble
      (exists_derives_written right hright) hblt
    rwa [hnode] at h
  | .call callee paren arguments, ⟨⟨hble, hcallee⟩, hparen, hle, harguments⟩ => by
    obtain ⟨n, hc⟩ := exists_derives_written callee hcallee
    obtain ⟨n, hc⟩ := hc.loosen hble
    obtain ⟨m, has⟩ := exists_derives_arguments arguments harguments
    refine ⟨max n m, ?_⟩
    have hrow : ∀ a ∈ writtenRow arguments, Derives (max n m) (.expression a.1) a.2 := by
      intro a ha
      obtain ⟨e, he, rfl⟩ := List.mem_map.1 ha
      exact (has e he).mono (Nat.le_max_right ..)
    have hlparen : (Token.word .leftParen "(").kind = .leftParen := rfl
    have h := Derives.call (hc.mono (Nat.le_max_left n m)) hlparen hrow
      (commas_writtenRow arguments) (by simpa [writtenRow] using hle) hparen
    rwa [trees_writtenRow] at h
  | .get object name, ⟨⟨hble, hobject⟩, hname⟩ => by
    obtain ⟨n, ho⟩ := exists_derives_written object hobject
    obtain ⟨n, ho⟩ := ho.loosen hble
    exact ⟨n, .get ho rfl hname⟩
  | .grouping inner, h => by
    obtain ⟨n, hi⟩ := exists_derives_written inner h
    obtain ⟨n, hi⟩ := hi.loosen (Nat.zero_le _)
    exact ⟨n, .primary (.grouping rfl hi rfl)⟩
  | .literal value, _ => ⟨0, .primary (.constant (denotes_token value))⟩
  | .set object name value, ⟨⟨hble, hobject⟩, hname, hvalue⟩ => by
    obtain ⟨n, ho⟩ := exists_derives_written object hobject
    obtain ⟨n, ho⟩ := ho.loosen hble
    obtain ⟨m, hv⟩ := exists_derives_written value hvalue
    obtain ⟨m, hv⟩ := hv.loosen (Nat.zero_le _)
    exact ⟨max n m + 2, .set (ho.mono (Nat.le_max_left ..)) rfl hname rfl
      (hv.mono (Nat.le_max_right ..)).succ⟩
  | .super ⟨name, hops⟩ method, ⟨⟨hhops, hname⟩, hmethod⟩ => by
    obtain rfl : hops = none := hhops
    exact ⟨0, .primary (.super hname rfl hmethod)⟩
  | .this ⟨name, hops⟩, ⟨hhops, hname⟩ => by
    obtain rfl : hops = none := hhops
    exact ⟨0, .primary (.this hname)⟩
  | .unary op right, ⟨hop, hle, hright⟩ => by
    obtain ⟨n, hr⟩ := exists_derives_written right hright
    obtain ⟨n, hr⟩ := hr.loosen hle
    exact ⟨n + 1, .unary hop hr⟩
  | .variable ⟨name, hops⟩, ⟨hhops, hname⟩ => by
    obtain rfl : hops = none := hhops
    exact ⟨0, .primary (.named hname)⟩
theorem exists_derives_arguments : ∀ es : List Expr, RespectsAll es →
    ∃ n, ∀ e ∈ es, Derives n (.expression e) e.written
  | [], _ => ⟨0, nofun⟩
  | e :: rest, ⟨he, hrest⟩ => by
    obtain ⟨n, he⟩ := exists_derives_written e he
    obtain ⟨n, he⟩ := he.loosen (Nat.zero_le _)
    obtain ⟨m, hrest⟩ := exists_derives_arguments rest hrest
    refine ⟨max n m, List.forall_mem_cons.2 ⟨he.mono (Nat.le_max_left ..), fun e h => ?_⟩⟩
    exact (hrest e h).mono (Nat.le_max_right ..)
end

/-! ## Reading what is derived -/

theorem readProgram_of_derives (h : Derives n (.program ss) ts) (hle : n ≤ room)
    (hstop : stop.kind = .eof) : readProgram room (ts ++ [stop]) = .finished ss [] := by
  have hread := (h.mono hle).read stop []
  rw [List.append_nil] at hread
  rw [readProgram, run_of_ends h.kind_ne_eof hstop, hread]
  rfl

theorem readExpression_of_derives (h : Derives n (.expression e) ts) (hle : n ≤ room)
    (hstop : stop.kind = .eof) : readExpression room (ts ++ [stop]) = .finished (some e) [] := by
  have hwhole : Rule.Leads (wholeExpression room) ts e [] := by
    rw [← List.append_nil ts]
    exact ((h.mono hle).read [] nofun).bind (.atEnd Rule.leads_pure)
  have hread := hwhole stop []
  rw [List.append_nil] at hread
  rw [readExpression, run_of_ends h.kind_ne_eof hstop, hread]
  rfl

theorem Derives.program_unique (h : Derives n (.program ss) ts) (h' : Derives m (.program ss') ts) :
    ss = ss' := by
  have hread := (h.mono (Nat.le_max_left n m)).read default []
  have hread' := (h'.mono (Nat.le_max_right n m)).read default []
  cases hread.symm.trans hread'
  rfl

theorem Derives.expression_unique (h : Derives n (.expression e) ts)
    (h' : Derives m (.expression e') ts) : e = e' := by
  have hread := (h.mono (Nat.le_max_left n m)).read [] nofun default []
  have hread' := (h'.mono (Nat.le_max_right n m)).read [] nofun default []
  cases hread.symm.trans hread'
  rfl

/-- What the grammar derives is read without a report and gives back the tree of the derivation,
wherever there is room for its nesting. So is an expression that respects precedence when it is
written out. No tokens have two trees. -/
theorem derived_text_read :
    (∀ n ss ts, Derives n (.program ss) ts → ∀ room stop, n ≤ room → stop.kind = .eof →
      readProgram room (ts ++ [stop]) = .finished ss []) ∧
    (∀ e : Expr, e.Respects → ∃ n, ∀ room stop, n ≤ room → stop.kind = .eof →
      readExpression room (e.written ++ [stop]) = .finished (some e) []) ∧
    (∀ n m ss ss' ts, Derives n (.program ss) ts → Derives m (.program ss') ts → ss = ss') ∧
    (∀ n m e e' ts, Derives n (.expression e) ts → Derives m (.expression e') ts → e = e') := by
  refine ⟨fun n ss ts h room stop hle hstop => readProgram_of_derives h hle hstop, fun e he => ?_,
    fun n m ss ss' ts h h' => h.program_unique h', fun n m e e' ts h h' => h.expression_unique h'⟩
  obtain ⟨n, h⟩ := exists_derives_written e he
  obtain ⟨n, h⟩ := h.loosen (Nat.zero_le _)
  exact ⟨n, fun room stop hle hstop => readExpression_of_derives h hle hstop⟩

/-- An `if` in an `if` with one `else`, and a difference of three operands the first of which has
its looser operator in parentheses. -/
theorem derived_text_read_of_nested :
    ∃ (s : Stmt) (ts : List Token) (e : Expr) (stop : Token) (n : Nat),
      ts.map (·.kind) = [.kwIf, .leftParen, .kwNil, .rightParen, .kwIf, .leftParen, .kwNil,
        .rightParen, .kwPrint, .kwNil, .semicolon, .kwElse, .kwPrint, .kwNil, .semicolon] ∧
      Derives 6 (.program [s]) ts ∧ stop.kind = .eof ∧
      readProgram 6 (ts ++ [stop]) = .finished [s] [] ∧
      e.written.map (·.kind) = [.leftParen, .kwNil, .kwOr, .kwTrue, .rightParen, .minus, .kwNil,
        .minus, .kwTrue] ∧
      e.Respects ∧ readExpression n (e.written ++ [stop]) = .finished (some e) [] := by
  obtain ⟨hprogram, hexpression, -⟩ := derived_text_read
  have hnil : Derives 2 (.expression (.literal .nil)) [.word .kwNil "nil"] :=
    .expression_of_unary <| .called (n := 0) <| .primary <| .constant (.nil rfl)
  have hprint : Derives 3 (.statement false (.print (.literal .nil)))
      (.word .kwPrint "print" :: ([.word .kwNil "nil"] ++ [.word .semicolon ";"])) :=
    .print rfl hnil rfl
  obtain ⟨s, ts, hts, hs⟩ : ∃ s ts, ts.map (·.kind) = [TokenKind.kwIf, .leftParen, .kwNil,
      .rightParen, .kwPrint, .kwNil, .semicolon, .kwElse, .kwPrint, .kwNil, .semicolon] ∧
      Derives 4 (.statement false s) ts :=
    ⟨_, .word .kwIf "if" :: .word .leftParen "(" :: (_ ++ .word .rightParen ")" ::
      (_ ++ .word .kwElse "else" :: _)), rfl, .ifElse rfl rfl hnil.succ rfl hprint rfl hprint⟩
  have hthen : Derives 6 (.declaration (.ifElse (.literal .nil) s .missing))
      (.word .kwIf "if" :: .word .leftParen "(" ::
        ([.word .kwNil "nil"] ++ .word .rightParen ")" :: ts)) :=
    .statement (.ifThen rfl rfl hnil.succ.succ rfl hs)
  have hderives := @Derives.program 6 [(_, _)] (List.forall_mem_singleton.2 hthen)
  have hrespects : (Expr.binary (.binary (.grouping (.logical (.literal .nil) (.word .kwOr "or")
      (.literal (.bool true)))) (.word .minus "-") (.literal .nil)) (.word .minus "-")
      (.literal (.bool true))).Respects := by
    simp [Expr.Respects, Expr.binding, Token.word, TokenKind.binding]
  obtain ⟨n, hread⟩ := hexpression _ hrespects
  refine ⟨_, _, _, .word .eof "", n, ?_, hderives, rfl,
    hprogram _ _ _ hderives _ _ (Nat.le_refl _) rfl, rfl, hrespects, hread n _ (Nat.le_refl n) rfl⟩
  simp [Row.tokens, Token.word, hts]

end Grammar

end LoxLang
