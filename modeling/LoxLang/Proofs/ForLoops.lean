import LoxLang.Proofs.LoopVariables

/-!
# For statements are while statements

A `for` statement is the `while` statement that one would write in its place
(`for_statement_is_while`). Its clauses, put together by hand, are read as the same tree, which is
resolved in the same way. It leaves the scopes around it as they were, and when it is executed its
parts are executed phase by phase, in a frame of its own if it has an initializer
(`ForLoop.Executes`).
-/

namespace LoxLang

open Grammar

/-- How a loop that begins in `m` is executed. -/
structure ForLoop.Executes (L : ForLoop) (m : Machine) (s : Setting) : Prop where
  /-- A phase that is due begins, if there is room for what waits during it. -/
  begins : L.Due m s p a → L.Room m s p → Machine.Course s m.stack.size m (L.start m a p)
  /-- The statement is over where the loop stops. -/
  stops : L.Stops m s m' → m.Finishes s m'
  /-- It is over nowhere else, except that there may be no room for a phase. -/
  ends : m.Finishes s m' → L.Stops m s m' ∨ ∃ p a, L.Due m s p a ∧ ¬L.Room m s p ∧
    m'.control = .failing (.overflow a.callToken)
  /-- The condition is evaluated before each body. -/
  tested : L.Due m s .body a → ∃ b v, L.Due m s .condition b ∧ L.Room m s .condition ∧
    (L.start m b .condition).Finishes s a ∧ a.control = .value v ∧ v.truthy = true
  /-- The increment is evaluated behind each body that is completed, and behind no other. -/
  incremented : L.Due m s (.increment e) a ↔ L.increment = some e ∧
    ∃ b v, L.Due m s .body b ∧ L.Room m s .body ∧
      (L.start m b .body).Finishes s a ∧ a.control = .value v
  /-- All phases begin in the frame of the loop or in one made for a turn directly inside. -/
  frames : L.Due m s p a → (L.start m a p).frame = L.frame m ∨ L.increment.isSome ∧
    ∃ bs, (L.start m a p).heap.frames.frame? (L.start m a p).frame = some ⟨some (L.frame m), bs⟩
  /-- With an initializer the frame of the loop is new, and from the initializer on it holds the
  variable. -/
  bound : L.initializer.isSome → m.heap.frames.frame? (L.frame m) = none ∧
    ∀ p a, L.Due m s p a → p ≠ L.first → L.HoldsVariable m a.heap
  /-- With an initializer, nothing goes on in the frame around the loop, and what it binds names to
  is changed by assignments only. -/
  outside : L.initializer.isSome → Machine.Course s m.stack.size m x →
    x.isOver m.stack.size = false → (x = m ∨ x.frame ≠ m.frame) ∧ ∀ name,
      (x.step s).heap.frames.lookup? m.frame name ≠ x.heap.frames.lookup? m.frame name →
        ∃ r v, x.Assigning r v ∧ r.name.lexeme = name ∧ x.target? r = some m.frame
  /-- At the end the frame around the loop is current again. -/
  restored : m.Finishes s m' → m'.stack = m.stack ∧ m'.frame = m.frame

namespace ForLoop

variable {L : ForLoop} {m : Machine}

/-- Wherever a loop begins, it is executed phase by phase. -/
theorem executes (hm : m.control = .exec L.tree) (hlt : m.frame < m.size) (s : Setting) :
    L.Executes m s where
  begins h hroom := h.course_start hm hroom
  stops h := h.finishes hm
  ends h := stops_of_due hm .first h.1 h.2
  tested h := due_body_iff.1 h
  incremented := due_increment_iff
  frames h := h.frame_start
  bound hi := by
    refine ⟨?_, fun p a h hp => h.holdsVariable hi hp⟩
    rw [frame, if_pos hi]
    exact Array.getElem?_eq_none (Nat.le_refl _)
  outside hi h hlive := by
    obtain ⟨i, hi⟩ := Option.isSome_iff_exists.1 hi
    rw [tree_of_initializer hi] at hm
    refine ⟨?_, fun name hne => h.assigning_of_block hm hlt hlive hne⟩
    exact (h.frame_ne_of_block hm hlt hlive).imp_right And.left
  restored h := h.back

/-- In a session, a loop with an initializer leaves no name in the frame around it. -/
theorem unbound_outside (ht : ((Session.start colored).after acts).task? a = some (cfg, c))
    (h : Moment colored acts a m log) (hm : m.control = .exec L.tree)
    (hi : L.initializer.isSome) (hend : m.Finishes cfg.setting m') (name : String)
    (hname : m.heap.frames.lookup? m.frame name = none) :
    m'.heap.frames.lookup? m.frame name = none := by
  obtain ⟨i, hi⟩ := Option.isSome_iff_exists.1 hi
  rw [tree_of_initializer hi] at hm
  exact h.unbound_of_block ht hm hend.1 hname

end ForLoop

/-- A `for` statement that is read without a report is the loop of its clauses, whatever stands
behind it. The clauses put together by hand as a `while` statement are read as the same tree, apart
from places, and the two are resolved to the same distances. The statement leaves the scopes around
it as they were, and wherever it is executed, its parts are executed phase by phase. -/
theorem for_statement_is_while {keyword stop : Token} {us rest : List Token} {made : List Report}
    {t : Stmt} {n : Nat} (hk : keyword.kind = .kwFor)
    (h : statement (n + 1) stop ⟨keyword :: us, made⟩ = .read t ⟨rest, made⟩) :
    ∃ ts, keyword :: us = ts ++ rest ∧ (∃ (k : Clauses) (L : ForLoop), k.IsFor ts ∧ k.Derive n L) ∧
      ∀ (k : Clauses) (L : ForLoop), k.IsFor ts → k.Derive n L →
        t = L.tree ∧
        (∀ (ts' : List Token) (stop' : Token) (room : Nat),
          ts'.map Token.content = k.byHand.map Token.content → stop'.kind = .eof → n + 7 ≤ room →
          ∃ t', readProgram room (ts' ++ [stop']) = .finished [t'] [] ∧ StmtMatches .content t t' ∧
            ∀ around Γ,
              StmtMatches .content (t.resolve around Γ).tree (t'.resolve around Γ).tree ∧
              (t'.resolve around Γ).scopes = (t.resolve around Γ).scopes ∧
              (t'.resolve around Γ).findings.length = (t.resolve around Γ).findings.length) ∧
        ∀ around Γ, (t.resolve around Γ).scopes = Γ ∧
          (t.resolve around Γ).tree = (L.resolve around Γ).tree ∧
          (∀ s m, m.control = .exec (t.resolve around Γ).tree → m.frame < m.size →
            (L.resolve around Γ).Executes m s) ∧
          ∀ colored acts a cfg task m log m',
            ((Session.start colored).after acts).task? a = some (cfg, task) →
            Moment colored acts a m log → m.control = .exec (t.resolve around Γ).tree →
            L.initializer.isSome → m.Finishes cfg.setting m' →
            ∀ name, m.heap.frames.lookup? m.frame name = none →
              m'.heap.frames.lookup? m.frame name = none := by
  obtain ⟨ts, hts, hexists, htree⟩ := clauses_of_read hk h
  refine ⟨ts, hts, hexists, fun k L hfor hL => ?_⟩
  obtain rfl := htree k L hfor hL
  obtain ⟨_, hbody⟩ := hL.body
  refine ⟨rfl, fun ts' stop' room hcontent hstop hle => ?_, fun around Γ => ?_⟩
  · obtain ⟨t', hread, ht'⟩ := hL.readProgram_byHand hle hcontent hstop
    exact ⟨t', hread, ht', fun around Γ => ht'.resolveAlike around Γ⟩
  · refine ⟨ForLoop.scopes_resolve hbody.declared_eq_nil around Γ,
      ForLoop.tree_resolve around Γ L, fun s m hm hlt => ?_, ?_⟩
    · rw [ForLoop.tree_resolve] at hm
      exact ForLoop.executes hm hlt s
    · intro colored acts a cfg task m log m' ht hmoment hm hi hend name hname
      rw [ForLoop.tree_resolve] at hm
      have hi : (L.resolve around Γ).initializer.isSome := by simpa [ForLoop.resolve] using hi
      exact ForLoop.unbound_outside ht hmoment hm hi hend name hname

/-- A `for` statement with all clauses, in front of another statement. -/
theorem for_statement_is_while_of_clauses :
    let i : Token := .word .identifier "i"
    let keyword : Token := .word .kwFor "for"
    let semicolon : Token := .word .semicolon ";"
    let k : Clauses :=
      ⟨[.word .kwVar "var", i, .word .equal "=", .word .kwNil "nil", semicolon], [i],
        [i, .word .equal "=", .word .bang "!", i], [.word .kwPrint "print", i, semicolon]⟩
    let L : ForLoop := ⟨some (.varDecl i (some (.literal .nil))), .variable ⟨i, none⟩,
      some (.assign ⟨i, none⟩ (.unary (.word .bang "!") (.variable ⟨i, none⟩))),
      .print (.variable ⟨i, none⟩)⟩
    let us := .word .leftParen "(" :: (k.initializer ++
      (k.condition ++ semicolon :: (k.increment ++ .word .rightParen ")" :: k.body)))
    let stop : Token := .word .eof ""
    let source := "\x7b var i = nil; while (i) \x7b print i; i = !i; \x7d \x7d".toList
    keyword.kind = .kwFor ∧
      statement 9 stop ⟨keyword :: us ++ [keyword], []⟩ = .read L.tree ⟨[keyword], []⟩ ∧
      (∃ t', readProgram 15 (scan source).tokens = .finished [t'] [] ∧
        StmtMatches .content L.tree t') ∧
      (L.resolve .topLevel []).Executes
        (Memory.initial.start (.exec (L.tree.resolve .topLevel []).tree)) ⟨100, fun _ => 0⟩ := by
  intro i keyword semicolon k L us stop source
  have hread : statement 9 stop ⟨keyword :: us ++ [keyword], []⟩ = .read L.tree ⟨[keyword], []⟩ :=
    rfl
  have hfor : k.IsFor (keyword :: us) := .initialized (List.cons_ne_nil _ _) rfl rfl rfl rfl
  have hi {n : Nat} : Derives (n + 1) (.unary (.variable ⟨i, none⟩)) [i] :=
    .called (.primary (.named rfl))
  have hL : k.Derive 8 L := by
    refine ⟨.inr ⟨_, rfl, .declared rfl ?_⟩, ⟨_, .present hi.expression_of_unary, rfl⟩,
      .present ?_, false, .print rfl hi.expression_of_unary rfl⟩
    · exact .varInitializer rfl rfl
        (.expression_of_unary (.called (.primary (.constant (.nil rfl))))) rfl
    · exact .assign rfl rfl (.expression_of_unary (.unary (by decide) hi))
  have hkeyword : keyword.kind = .kwFor := rfl
  obtain ⟨ts, hts, -, hall⟩ := for_statement_is_while hkeyword hread
  obtain rfl : ts = keyword :: us := (List.append_cancel_right hts).symm
  obtain ⟨-, hwritten, hexecuted⟩ := hall k L hfor hL
  obtain ⟨ts', hends, -⟩ := scan_ends source
  have hstop : (Token.endOf source).kind = .eof := rfl
  have hcontent : (scan source).tokens.map Token.content =
      k.byHand.map Token.content ++ [(.eof, "", none)] := rfl
  rw [hends, List.map_append] at hcontent
  obtain ⟨t', ht', hmatches, -⟩ :=
    hwritten ts' _ 15 (List.append_inj' hcontent rfl).1 hstop (Nat.le_refl _)
  refine ⟨hkeyword, hread, ⟨t', ?_, hmatches⟩, ?_⟩
  · rw [hends]
    exact ht'
  · obtain ⟨-, -, hexecutes, -⟩ := hexecuted .topLevel []
    exact hexecutes ⟨100, fun _ => 0⟩ _ rfl (by decide)

end LoxLang
