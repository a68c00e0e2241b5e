import LoxLang.Proofs.Parsing.Following

/-!
# Reading within bounds

Reading stays inside the tokens and comes to an end (`reading_stays_inside`). The reader of each
construct does what its rule does (`sim_expression_unary`, `follows_declaration_statement`), with
attempts at declarations that recover at a boundary of statements (`followsAt_attempt`); so whole
readings do what the grammar says, and all that they have done is orderly.
-/

namespace LoxLang.Grammar

open Rule (Consumes consumes_expect consumes_commaList)

/-! ## Expressions -/

section

variable {ts : List Token} {stop : Token} (hts : ∀ t ∈ ts, t.kind ≠ .eof) (hstop : stop.kind = .eof)
  {w : Walk Expr} {p : Rule Expr} (hp : ∀ k, Sim ts stop k w p)
include hts hstop hp

theorem sim_chain (hc : Consumes 0 p) : Sim ts stop k (Walk.chain kinds w) (chain kinds p) :=
  fun s hs => (hp k s hs).bind fun _ s' hs' _ =>
    followsAt_chainInto hts hstop hp hc hs' (turns_lt s' stop) (Nat.le_of_eq List.length_drop.symm)

theorem sim_binary (hc : Consumes 0 p) (ls : List (List TokenKind)) :
    Sim ts stop k (Walk.binary w ls) (binary p ls) := by
  induction ls generalizing k with
  | nil => exact hp k
  | cons kinds ls ih => exact sim_chain hts hstop (fun _ => ih) (consumes_binary hc ls)

theorem sim_assignTo (target : Expr) :
    Sim ts stop k (Walk.assignTo w target) (assignTo p target) := by
  refine .accept hts hstop sim_pure fun equals => (hp _).bind fun value => ?_
  cases assignment? target value with
  | some e => exact sim_pure
  | none => exact sim_complain.bind fun _ => sim_pure

theorem sim_primary : Sim ts stop k (Walk.primary w) (primary p) := by
  refine .accept hts hstop sim_reject fun t => ?_
  dsimp only
  generalize t.kind = kind
  cases kind with
  | kwSuper =>
    exact (sim_expect hts hstop).bind fun _ => (sim_expect hts hstop).bind fun _ => sim_pure
  | leftParen => exact (hp _).bind fun _ => (sim_expect hts hstop).bind fun _ => sim_pure
  | _ => exact sim_pure

theorem followsAt_suffixesInto (hc : Consumes 1 p) {s : Spot} (hs : s.current ≤ ts.length)
    (hn : ts.length - s.current < n) (hturns : ts.length - s.current ≤ turns.length) :
    FollowsAt ts stop k (Walk.suffixesInto w n e) (suffixesInto p turns e) s := by
  induction n generalizing turns e s k with
  | zero => exact absurd hn (Nat.not_lt_zero _)
  | succ n ih =>
    cases turns with
    | nil =>
      exact followsAt_accept_of_end hts hstop hs (Nat.le_of_sub_eq_zero (Nat.le_zero.1 hturns))
        (.read (.refl hs _))
    | cons turn turns =>
      refine .accept hts hstop hs (.read (.refl hs _)) fun t hlt => ?_
      have hnext (e' : Expr) (s' : Spot) (hs' : s'.current ≤ ts.length)
          (hle : s.current + 1 ≤ s'.current) :
          FollowsAt ts stop (k - 1) (Walk.suffixesInto w n e') (suffixesInto p turns e') s' := by
        simp only [List.length_cons] at hturns
        exact ih hs' (by omega) (by omega)
      dsimp only
      split
      · refine (sim_commaList hts hstop hp hc s.past hlt).bind fun arguments s' hs' hread => ?_
        refine (sim_expect hts hstop s' hs').bind fun paren s'' hs'' hread' => ?_
        have hlist := current_of_consumes (s := s.past) hlt
          (consumes_commaList (hc.mono (Nat.zero_le 1)) stop _) hread hs'
        have hparen := current_of_consumes hs' (consumes_expect stop _) hread' hs''
        exact hnext _ s'' hs'' (Nat.le_trans hlist (by omega))
      · refine (sim_expect hts hstop s.past hlt).bind fun name s' hs' hread => ?_
        have hname := current_of_consumes (s := s.past) hlt (consumes_expect stop _) hread hs'
        exact hnext _ s' hs' (Nat.le_of_succ_le hname)

theorem sim_call (hc : Consumes 1 p) : Sim ts stop k (Walk.call w) (call p) := fun s hs =>
  (sim_primary hts hstop hp s hs).bind fun _ s' hs' _ =>
    followsAt_suffixesInto hts hstop hp hc hs' (turns_lt s' stop)
      (Nat.le_of_eq List.length_drop.symm)

end

section

variable {ts : List Token} {stop : Token} (hts : ∀ t ∈ ts, t.kind ≠ .eof) (hstop : stop.kind = .eof)
include hts hstop

theorem sim_expression_unary (room : Nat) :
    (∀ k, Sim ts stop k (Walk.expression room) (expression room)) ∧
      ∀ k, Sim ts stop k (Walk.unary room) (unary room) := by
  induction room with
  | zero => exact ⟨fun _ => sim_tooDeep, fun _ => sim_tooDeep⟩
  | succ room ih =>
    obtain ⟨hexpr, hunary⟩ := ih
    obtain ⟨hcexpr, hcunary⟩ := consumes_expression_unary room
    constructor
    · exact fun _ => (sim_binary hts hstop hunary (hcunary.mono (Nat.zero_le 1)) levels).bind
        fun _ => sim_assignTo hts hstop hexpr _
    · exact fun _ => .accept hts hstop (sim_call hts hstop hexpr hcexpr) fun _ =>
        (hunary _).bind fun _ => sim_pure

end

/-! ## Recovery -/

section

variable {ts : List Token} {stop : Token} (hts : ∀ t ∈ ts, t.kind ≠ .eof) (hstop : stop.kind = .eof)
  {s : Spot}

theorem previous_eq (hi : i < ts.length) (hcurrent : s.current = i + 1) :
    Walk.previous (ts ++ [stop]) s = .read ts[i] s := by
  unfold Walk.previous Walk.lookUp
  rw [hcurrent]
  simp only [List.getElem?_append_left hi, List.getElem?_eq_getElem hi]

/-- How a reader goes on to a boundary. -/
structure Settles (ts : List Token) (s s' : Spot) (rest : List Token) : Prop where
  path : ∃ news, Path ts (s.current + 1) s s' news
  cursor : s'.cursor ts = ⟨rest, s.made⟩
  boundary : Boundary ts s'.current

include hts hstop

theorem settle_settles (hi : i < ts.length) (hcurrent : s.current = i + 1)
    (hn : ts.length - s.current < n) :
    ∃ s', Walk.settle n (ts ++ [stop]) s = .read () s' ∧
      Settles ts s s' (settle ts[i] (ts.drop s.current)) := by
  induction n generalizing s i with
  | zero => exact absurd hn (Nat.not_lt_zero _)
  | succ n ih =>
    have hs : s.current ≤ ts.length := hcurrent ▸ hi
    change ∃ s', Walk.bind Walk.atEnd _ _ s = _ ∧ _
    unfold Walk.bind
    rw [atEnd_eq hts hstop hs]
    rcases Nat.lt_or_eq_of_le hs with hlt | heq
    · rw [List.drop_eq_getElem_cons hlt]
      change ∃ s', Walk.bind Walk.previous _ _ s = _ ∧ _
      unfold Walk.bind settle
      rw [previous_eq hi hcurrent]
      have hstay (hb : Boundary ts s.current) :
          Settles ts s s (ts[s.current] :: ts.drop (s.current + 1)) :=
        ⟨⟨[], .refl hs _⟩, congrArg (Cursor.mk · s.made) (List.drop_eq_getElem_cons hlt), hb⟩
      by_cases hsemi : ts[i].kind = .semicolon
      · simp only [hsemi, ↓reduceIte, decide_true, Bool.true_or]
        exact ⟨s, rfl, hstay (.inr (.inl ⟨i, ts[i], hcurrent, List.getElem?_eq_getElem hi, hsemi⟩))⟩
      simp only [hsemi, ↓reduceIte, decide_false, Bool.false_or]
      change ∃ s', Walk.bind Walk.peek _ _ s = _ ∧ _
      unfold Walk.bind
      rw [peek_eq hs, List.drop_eq_getElem_cons hlt]
      by_cases hstart : ts[s.current].kind.startsStatement
      · simp only [List.headD_cons, hstart, ↓reduceIte]
        exact ⟨s, rfl, hstay (.inr (.inr ⟨_, List.getElem?_eq_getElem hlt, hstart⟩))⟩
      simp only [List.headD_cons, hstart, Bool.false_eq_true, ↓reduceIte]
      change ∃ s', Walk.bind Walk.advance _ _ s = _ ∧ _
      unfold Walk.bind
      rw [advance_eq hts hstop hlt]
      obtain ⟨s', hread, ⟨news, hpath⟩, hcursor, hb⟩ :=
        ih (s := s.past) hlt rfl (by simp only [Spot.past]; omega)
      exact ⟨s', hread, ⟨_, hpath.behind (path_past hlt _) (Nat.le_succ _) (Nat.le_succ _)⟩,
        hcursor, hb⟩
    · rw [heq, List.drop_length]
      exact ⟨s, rfl, ⟨[], .refl hs _⟩, by rw [Spot.cursor, heq, List.drop_length]; rfl, .inl heq⟩

/-- A reader that gives up behind a place skips a token at least, unless it is at the end. -/
theorem synchronize_settles (hs : s.current ≤ ts.length) (hlo : lo ≤ s.current)
    (hlt : lo < ts.length) :
    ∃ s', Walk.synchronize (ts ++ [stop]) s = .read () s' ∧
      Settles ts s s' (skipToBoundary (ts.drop s.current)) ∧ lo < s'.current := by
  change ∃ s', Walk.bind Walk.advance _ _ s = _ ∧ _
  unfold Walk.bind
  rcases Nat.lt_or_eq_of_le hs with hbefore | hend
  · rw [advance_eq hts hstop hbefore]
    obtain ⟨s', hread, ⟨news, hpath⟩, hcursor, hb⟩ :=
      settle_settles hts hstop (s := s.past) hbefore rfl (turns_lt s.past stop)
    refine ⟨s', hread, ⟨⟨_, hpath.behind (path_past hbefore _) (Nat.le_succ _) (Nat.le_succ _)⟩,
      ?_, hb⟩, Nat.lt_of_lt_of_le (Nat.lt_succ_of_le hlo) hpath.forward⟩
    rw [hcursor, List.drop_eq_getElem_cons hbefore]
    rfl
  · obtain ⟨i, hi⟩ := Nat.exists_eq_add_one_of_ne_zero (Nat.ne_zero_of_lt (hend ▸ hlt))
    have hadvance : Walk.advance (ts ++ [stop]) s = Walk.previous (ts ++ [stop]) s := by
      change Walk.bind Walk.atEnd _ _ s = _
      unfold Walk.bind
      rw [atEnd_eq hts hstop hs, hend, List.drop_length]
      rfl
    rw [hadvance, previous_eq (by omega) hi]
    obtain ⟨s', hread, hsettles⟩ :=
      settle_settles hts hstop (s := s) (by omega) hi (turns_lt s stop)
    rw [hend, List.drop_length] at hsettles ⊢
    obtain ⟨news, hpath⟩ := hsettles.path
    exact ⟨s', hread, hsettles, Nat.lt_of_lt_of_le (hend ▸ hlt) hpath.forward⟩

/-- A declaration that is attempted in front of the end. -/
theorem followsAt_attempt {w : Walk Stmt} {p : Rule Stmt} (hp : Sim ts stop 1 w p)
    (hc : ∀ c, (recovering p stop c).Consumes (min 1 c.rest.length) c)
    (hs : s.current < ts.length) :
    FollowsAt ts stop 0 (Walk.attempt w) (recovering p) s := by
  have hbody := hp (s.log (.begins s.current)) (Nat.le_of_lt hs)
  have hconsumes := hc (s.cursor ts)
  have hbegin : (Walk.log (.begins ·.current) >>= fun _ => w) (ts ++ [stop]) s =
    w (ts ++ [stop]) (s.log (.begins s.current)) := rfl
  change Follows ts 1 (s.log (.begins s.current)) (w (ts ++ [stop]) (s.log (.begins s.current)))
    (p stop (s.cursor ts)) at hbody
  unfold FollowsAt Walk.attempt recovering at *
  rw [hbegin]
  generalize w (ts ++ [stop]) (s.log (.begins s.current)) = r at hbody ⊢
  generalize ho : p stop (s.cursor ts) = o at hbody hconsumes ⊢
  cases hbody with
  | read hpath =>
    have hread := current_of_consumes (Nat.le_of_lt hs) hconsumes rfl hpath.bound
    have hlen : (s.cursor ts).rest.length = ts.length - s.current := List.length_drop
    exact .read (hpath.attempt (by omega) nofun)
  | @gaveUp s' _ hpath =>
    obtain ⟨s'', hread, ⟨⟨_, hskip⟩, hcursor, hb⟩, hlt⟩ :=
      synchronize_settles hts hstop hpath.bound hpath.forward hs
    change Follows ts 0 s (Walk.bind Walk.synchronize _ _ s') _
    unfold Walk.bind
    rw [hread]
    change Follows ts 0 s _ (.read Stmt.missing ⟨skipToBoundary (ts.drop s'.current), s'.made⟩)
    rw [← hcursor]
    have hforward : s.current ≤ s'.current := hpath.forward
    exact .read ((hskip.behind hpath (Nat.succ_le_succ hforward) (Nat.le_succ _)).attempt hlt
      fun _ => hb)
  | tooDeep hcut => exact .tooDeep (hcut.attempt hs)

end

/-! ## Statements -/

section

variable {ts : List Token} {stop : Token} (hts : ∀ t ∈ ts, t.kind ≠ .eof) (hstop : stop.kind = .eof)
  {expr : Walk Expr} {expr' : Rule Expr} {decl stmt : Walk Stmt} {decl' stmt' : Rule Stmt}
  (hexpr : ∀ k, Sim ts stop k expr expr')
  (hdecl : ∀ s, s.current < ts.length → FollowsAt ts stop 0 decl decl' s)
  (hcdecl : ∀ stop c, (decl' stop c).Consumes (min 1 c.rest.length) c)
  (hstmt : Sim ts stop 0 stmt stmt')

include hts hstop hexpr

theorem sim_optional : Sim ts stop k (Walk.optional kind expr) (optional kind expr') := by
  refine (sim_check hts hstop).bind fun found => ?_
  cases found with
  | true => exact sim_pure
  | false => exact (hexpr _).bind fun _ => sim_pure

theorem sim_expressionStatement :
    Sim ts stop k (Walk.expressionStatement expr) (expressionStatement expr') :=
  (hexpr _).bind fun _ => (sim_expect hts hstop).bind fun _ => sim_pure

theorem sim_varDecl : Sim ts stop k (Walk.varDecl expr) (varDecl expr') := by
  refine (sim_expect hts hstop).bind fun name => ?_
  have hrest (k : Nat) (e : Option Expr) : Sim ts stop k
      (do
        let _ ← Walk.expect .semicolon "Expect ';' after variable declaration."
        pure (Stmt.varDecl name e))
      (do
        let _ ← Rule.expect .semicolon "Expect ';' after variable declaration."
        pure (Stmt.varDecl name e)) := (sim_expect hts hstop).bind fun _ => sim_pure
  exact .accept hts hstop (hrest _ none) fun _ => (hexpr _).bind fun e => hrest _ (some e)

theorem sim_printStatement :
    Sim ts stop k (Walk.printStatement expr) (printStatement expr') :=
  (hexpr _).bind fun _ => (sim_expect hts hstop).bind fun _ => sim_pure

theorem sim_returnStatement (keyword : Token) :
    Sim ts stop k (Walk.returnStatement expr keyword) (returnStatement expr' keyword) :=
  (sim_optional hts hstop hexpr).bind fun _ => (sim_expect hts hstop).bind fun _ => sim_pure

include hstmt

theorem sim_whileLoop : Sim ts stop 0 (Walk.whileLoop expr stmt) (whileLoop expr' stmt') :=
  (sim_expect hts hstop).bind fun _ => (hexpr _).bind fun _ => (sim_expect hts hstop).bind fun _ =>
    hstmt.bind fun _ => sim_pure

theorem sim_conditional : Sim ts stop 0 (Walk.conditional expr stmt) (conditional expr' stmt') :=
  (sim_expect hts hstop).bind fun _ => (hexpr _).bind fun _ => (sim_expect hts hstop).bind fun _ =>
    hstmt.bind fun _ => .accept hts hstop sim_pure fun _ => hstmt.bind fun _ => sim_pure

theorem sim_forLoop : Sim ts stop 0 (Walk.forLoop expr stmt) (forLoop expr' stmt') := by
  refine (sim_expect hts hstop).bind fun _ => ?_
  have hrest (i : Option Stmt) : Sim ts stop 0
      (do
        let condition ← Walk.optional .semicolon expr
        let _ ← Walk.expect .semicolon "Expect ';' after loop condition."
        let increment ← Walk.optional .rightParen expr
        let _ ← Walk.expect .rightParen "Expect ')' after for clauses."
        let body ← stmt
        pure (desugarFor i condition increment body))
      (do
        let condition ← optional .semicolon expr'
        let _ ← Rule.expect .semicolon "Expect ';' after loop condition."
        let increment ← optional .rightParen expr'
        let _ ← Rule.expect .rightParen "Expect ')' after for clauses."
        let body ← stmt'
        pure (desugarFor i condition increment body)) :=
    (sim_optional hts hstop hexpr).bind fun _ => (sim_expect hts hstop).bind fun _ =>
      (sim_optional hts hstop hexpr).bind fun _ => (sim_expect hts hstop).bind fun _ =>
      hstmt.bind fun _ => sim_pure
  refine .accept hts hstop ((sim_expressionStatement hts hstop hexpr).bind fun s => hrest (some s))
    fun t => ?_
  by_cases hsemi : t.kind = .semicolon
  · simp only [hsemi, ↓reduceIte]
    exact hrest none
  · simp only [hsemi, ↓reduceIte]
    exact (sim_varDecl hts hstop hexpr).bind fun s => hrest (some s)

omit hexpr hstmt
include hdecl hcdecl

theorem sim_block : Sim ts stop 0 (Walk.block decl) (block decl') :=
  (sim_piecesUntil_closed hts hstop hdecl (hcdecl stop)).bind fun _ =>
    (sim_expect hts hstop).bind fun _ => sim_pure

theorem sim_function : Sim ts stop 0 (Walk.function kind decl) (function kind decl') :=
  (sim_expect hts hstop).bind fun _ => (sim_expect hts hstop).bind fun _ =>
    (sim_commaList hts hstop (fun _ => sim_expect hts hstop) consumes_expect).bind fun _ =>
    (sim_expect hts hstop).bind fun _ => (sim_expect hts hstop).bind fun _ =>
    (sim_block hts hstop hdecl hcdecl).bind fun _ => sim_pure

theorem sim_classDecl : Sim ts stop 0 (Walk.classDecl decl) (classDecl decl') := by
  refine (sim_expect hts hstop).bind fun name => ?_
  have hfunction : Consumes 1 (function "method" decl') :=
    consumes_function fun stop c => (hcdecl stop c).mono (Nat.zero_le _)
  have hrest (superclass : Option Reference) : Sim ts stop 0
      (do
        let _ ← Walk.expect .leftBrace "Expect '\x7b' before class body."
        let methods ← Walk.piecesUntil Walk.closed (Walk.function "method" decl)
        let _ ← Walk.expect .rightBrace "Expect '\x7d' after class body."
        pure (Stmt.classDecl name superclass methods))
      (do
        let _ ← Rule.expect .leftBrace "Expect '\x7b' before class body."
        let methods ← Rule.piecesUntil [.rightBrace] (function "method" decl')
        let _ ← Rule.expect .rightBrace "Expect '\x7d' after class body."
        pure (Stmt.classDecl name superclass methods)) :=
    (sim_expect hts hstop).bind fun _ =>
      (sim_piecesUntil_closed hts hstop
        (fun s hs => sim_function hts hstop hdecl hcdecl s (Nat.le_of_lt hs))
        (fun c => (hfunction stop c).mono (Nat.min_le_left _ _))).bind fun _ =>
      (sim_expect hts hstop).bind fun _ => sim_pure
  exact .accept hts hstop (hrest none) fun _ =>
    (sim_expect hts hstop).bind fun parent => hrest (some ⟨parent, none⟩)

end

section

variable {ts : List Token} {stop : Token} (hts : ∀ t ∈ ts, t.kind ≠ .eof) (hstop : stop.kind = .eof)
include hts hstop

theorem follows_declaration_statement (room : Nat) :
    (∀ s, s.current < ts.length →
      FollowsAt ts stop 0 (Walk.declaration room) (declaration room) s) ∧
      Sim ts stop 1 (Walk.statement room) (statement room) := by
  induction room with
  | zero => exact ⟨fun s hs => sim_tooDeep s (Nat.le_of_lt hs), sim_tooDeep⟩
  | succ room ih =>
    obtain ⟨hdecl, hstmt⟩ := ih
    have hexpr := (sim_expression_unary hts hstop room).1
    obtain ⟨hcdecl, hcstmt⟩ := consumes_declaration_statement room
    constructor
    · refine fun s hs => followsAt_attempt hts hstop (.accept hts hstop hstmt fun t => ?_)
        ((consumes_declaration_statement (room + 1)).1 stop) hs
      dsimp only
      generalize t.kind = kind
      cases kind with
      | kwClass => exact sim_classDecl hts hstop hdecl hcdecl
      | kwFun => exact (sim_function hts hstop hdecl hcdecl).bind fun _ => sim_pure
      | _ => exact sim_varDecl hts hstop hexpr
    · refine .accept hts hstop (sim_expressionStatement hts hstop hexpr) fun t => ?_
      have hstmt := hstmt.mono (Nat.zero_le 1)
      dsimp only
      generalize t.kind = kind
      cases kind with
      | kwFor => exact sim_forLoop hts hstop hexpr hstmt
      | kwIf => exact sim_conditional hts hstop hexpr hstmt
      | kwPrint => exact sim_printStatement hts hstop hexpr
      | kwReturn => exact sim_returnStatement hts hstop hexpr t
      | kwWhile => exact sim_whileLoop hts hstop hexpr hstmt
      | _ => exact (sim_block hts hstop hdecl hcdecl).bind fun _ => sim_pure

theorem sim_program (room : Nat) : Sim ts stop 0 (Walk.program room) (program room) :=
  sim_piecesUntil_atEnd hts hstop (follows_declaration_statement hts hstop room).1
    ((consumes_declaration_statement room).1 stop)

theorem sim_toEnd (room : Nat) :
    Sim ts stop k (Walk.toEnd (Walk.expression room)) (wholeExpression room) := by
  refine ((sim_expression_unary hts hstop room).1 _).bind fun e => ?_
  refine (sim_atEnd hts hstop).bind fun reached => ?_
  cases reached with
  | true => exact sim_pure
  | false => exact sim_reject

end

/-! ## Whole readings -/

/-- A reading of declarations goes to the end. -/
theorem rest_of_program (h : program room stop c = .read ss next) : next.rest = [] := by
  have hloop (turns : List Token) (acc : List Stmt) (c : Cursor)
      (hturns : c.rest.length ≤ turns.length)
      (h : Rule.piecesInto [] (declaration room) turns acc stop c = .read ss next) :
      next.rest = [] := by
    induction turns generalizing acc c with
    | nil =>
      cases h
      exact List.eq_nil_of_length_eq_zero (Nat.le_zero.1 hturns)
    | cons turn turns ih =>
      obtain ⟨_ | ⟨t, rest⟩, made⟩ := c
      · cases h
        rfl
      · rw [Rule.piecesInto_cons] at h
        change Rule.bind (declaration room) _ stop _ = _ at h
        unfold Rule.bind at h
        have hread := (consumes_declaration_statement room).1 stop ⟨t :: rest, made⟩
        cases hr : declaration room stop ⟨t :: rest, made⟩ with
        | gaveUp | tooDeep => rw [hr] at h; cases h
        | read a mid =>
          rw [hr] at h hread
          have hshorter := hread.2.1
          simp only [List.length_cons] at hshorter hturns
          exact ih _ _ (by omega) h
  exact hloop c.rest [] c (Nat.le_refl _) h

/-- Whatever the tokens in front of the end are, reading by index never looks outside them, takes
none beyond them, and comes to an end, with what the rules of the grammar read, unless the text is
nested too deeply for the room. Every declaration that is attempted is over when a program has been
read, and has taken a token; where it has failed, the reader is at a boundary of statements. The
reader of a program comes out at the end, and neither reader comes out giving up. -/
theorem reading_stays_inside {ts : List Token} {stop : Token} (hts : ∀ t ∈ ts, t.kind ≠ .eof)
    (hstop : stop.kind = .eof) (room : Nat) :
    ((∃ ss s, Walk.program room (ts ++ [stop]) .first = .read ss s ∧
        readProgram room (ts ++ [stop]) = .finished ss s.made.reverse ∧ s.current = ts.length ∧
        Orderly ts s.deeds ∧ ∀ i, .begins i ∈ s.deeds → Over s.deeds i) ∨
      room < 2 * ts.length + 4 ∧ ∃ s, Walk.program room (ts ++ [stop]) .first = .tooDeep s ∧
        readProgram room (ts ++ [stop]) = .tooDeep s.made.reverse ∧ Orderly ts s.deeds) ∧
    ((∃ e s, Walk.wholeExpression room (ts ++ [stop]) .first = .read e s ∧
        readExpression room (ts ++ [stop]) = .finished e s.made.reverse ∧ Orderly ts s.deeds) ∨
      room < 2 * ts.length + 2 ∧ ∃ s, Walk.wholeExpression room (ts ++ [stop]) .first = .tooDeep s ∧
        readExpression room (ts ++ [stop]) = .tooDeep s.made.reverse ∧ Orderly ts s.deeds) := by
  constructor
  · have hfollows := sim_program hts hstop room .first (Nat.zero_le _)
    have hshallow : 2 * ts.length + 4 ≤ room → (program room).Shallow ts.length := shallow_program
    rw [readProgram, run_of_ends hts hstop]
    change Follows ts 0 .first (Walk.program room (ts ++ [stop]) .first)
      (program room stop ⟨ts, []⟩) at hfollows
    generalize Walk.program room (ts ++ [stop]) .first = r at hfollows ⊢
    generalize ho : program room stop ⟨ts, []⟩ = o at hfollows ⊢
    cases hfollows with
    | @read s news ss hpath =>
      have hend : ts.drop s.current = [] := rest_of_program ho
      have hdeeds : s.deeds = news := hpath.deeds.trans (List.append_nil news)
      refine .inl ⟨ss, s, rfl, rfl, ?_, hpath.orderly, fun i hi => ?_⟩
      · exact Nat.le_antisymm hpath.bound (List.drop_eq_nil_iff.1 hend)
      · rw [hdeeds] at hi ⊢
        exact hpath.ended i (mem_begun.2 hi)
    | gaveUp => exact absurd ho program_ne_gaveUp
    | @tooDeep s news hcut =>
      refine .inr ⟨Nat.lt_of_not_le fun hle => ?_, s, rfl, rfl, hcut.orderly⟩
      exact hshallow hle stop ⟨ts, []⟩ (Nat.le_refl _) _ ho
  · have hfollows := sim_toEnd (k := 0) hts hstop room .first (Nat.zero_le _)
    have hshallow : 2 * ts.length + 2 ≤ room → (wholeExpression room).Shallow ts.length :=
      shallow_wholeExpression
    rw [readExpression, run_of_ends hts hstop]
    unfold Walk.wholeExpression
    change Follows ts 0 .first (Walk.toEnd (Walk.expression room) (ts ++ [stop]) .first)
      (wholeExpression room stop ⟨ts, []⟩) at hfollows
    generalize Walk.toEnd (Walk.expression room) (ts ++ [stop]) .first = r at hfollows ⊢
    generalize ho : wholeExpression room stop ⟨ts, []⟩ = o at hfollows ⊢
    cases hfollows with
    | @read s news e hpath => exact .inl ⟨some e, s, rfl, rfl, hpath.orderly⟩
    | @gaveUp s news hpath => exact .inl ⟨none, s, rfl, rfl, hpath.orderly⟩
    | @tooDeep s news hcut =>
      refine .inr ⟨Nat.lt_of_not_le fun hle => ?_, s, rfl, rfl, hcut.orderly⟩
      exact hshallow hle stop ⟨ts, []⟩ (Nat.le_refl _) _ ho

/-- In a block, a variable without a name is skipped up to behind the semicolon. -/
theorem reading_stays_inside_of_nameless_variable :
    let token (kind : TokenKind) : Token := ⟨kind, "", none, 1, 1⟩
    let ts := [token .leftBrace, token .kwVar, token .semicolon, token .rightBrace]
    let deeds : List Deed := [.ends 0 4 true, .takes 3, .ends 1 3 false, .takes 2, .takes 1,
      .begins 1, .takes 0, .begins 0]
    (∀ t ∈ ts, t.kind ≠ .eof) ∧ (token .eof).kind = .eof ∧
      ∃ made, Walk.program 12 (ts ++ [token .eof]) .first = .read [.block [.missing]]
          ⟨4, made, deeds⟩ ∧
        readProgram 12 (ts ++ [token .eof]) = .finished [.block [.missing]] made.reverse ∧
        Orderly ts deeds ∧ ∀ i, .begins i ∈ deeds → Over deeds i := by
  intro token ts deeds
  have hts : ∀ t ∈ ts, t.kind ≠ .eof := by decide
  have hstop : (token .eof).kind = .eof := rfl
  have hrun : ∃ made, Walk.program 12 (ts ++ [token .eof]) .first =
      .read [.block [.missing]] ⟨4, made, deeds⟩ := ⟨_, rfl⟩
  obtain ⟨made, hrun⟩ := hrun
  obtain ⟨⟨ss, s, hread, hreading, -, horderly, hreached⟩ | ⟨hroom, -⟩, -⟩ :=
    reading_stays_inside hts hstop 12
  · rw [hrun] at hread
    cases hread
    exact ⟨hts, hstop, made, hrun, hreading, horderly, hreached⟩
  · exact absurd hroom (by decide)

end LoxLang.Grammar
