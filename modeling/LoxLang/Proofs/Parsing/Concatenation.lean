import LoxLang.Proofs.Parsing.Complete
import LoxLang.Proofs.Parsing.Progress

/-!
# Programs one behind the other

A program that is read without a report is read the same with more tokens behind it, and what is
behind it is read as if it stood alone, however broken it is (`readProgram_append`). No declaration
looks at the token behind it but for an `else` (`Derives.read`), so the loop over declarations
arrives at the tokens behind the program with nothing reported (`piecesInto_row`). From there on it
does what it does for these tokens alone: that it has more turns than tokens left and has read
pieces already makes no difference (`piecesInto_behind`), since every turn reads at least a token.
-/

namespace LoxLang

/-- The outcome with something else made of what was read. -/
def Outcome.map (f : α → β) : Outcome α → Outcome β
  | .read a next => .read (f a) next
  | .gaveUp next => .gaveUp next
  | .tooDeep made => .tooDeep made

/-- The reading with something else made of what was read; its reports stay. -/
def Grammar.Reading.map (f : α → β) : Grammar.Reading α → Grammar.Reading β
  | .finished a reports => .finished (f a) reports
  | .tooDeep reports => .tooDeep reports

namespace Rule

section
variable {p : Rule α}

theorem piecesInto_nil :
    piecesInto kinds p turns acc stop ⟨[], made⟩ = .read acc.reverse ⟨[], made⟩ := by
  cases turns <;> rfl

theorem piecesInto_cons : piecesInto [] p (turn :: turns) acc stop ⟨t :: rest, made⟩ =
    (p >>= fun a => piecesInto [] p turns (a :: acc)) stop ⟨t :: rest, made⟩ := rfl

/-- The pieces read so far are only put in front, and turns beyond the tokens that are left are not
taken. -/
theorem piecesInto_behind (hp : ∀ stop c, (p stop c).Consumes (min 1 c.rest.length) c)
    (before acc : List α) (hturns : c.rest.length ≤ turns.length)
    (hothers : c.rest.length ≤ others.length) :
    piecesInto [] p turns (acc ++ before.reverse) stop c =
      (piecesInto [] p others acc stop c).map (before ++ ·) := by
  induction turns generalizing acc others c with
  | nil =>
    obtain ⟨rest, made⟩ := c
    obtain rfl : rest = [] := List.eq_nil_of_length_eq_zero (Nat.le_zero.1 hturns)
    simp [piecesInto_nil, Outcome.map]
  | cons turn turns ih =>
    obtain ⟨_ | ⟨t, rest⟩, made⟩ := c
    · simp [piecesInto_nil, Outcome.map]
    obtain _ | ⟨other, others⟩ := others
    · cases hothers
    rw [piecesInto_cons, piecesInto_cons]
    change Rule.bind p _ stop _ = (Rule.bind p _ stop _).map _
    unfold Rule.bind
    have hread := hp stop ⟨t :: rest, made⟩
    cases hr : p stop ⟨t :: rest, made⟩ with
    | gaveUp => rfl
    | tooDeep => rfl
    | read a next =>
      rw [hr] at hread
      have hshorter := hread.2.1
      simp only [List.length_cons] at hshorter hturns hothers
      exact ih (a :: acc) (by omega) (by omega)

theorem piecesUntil_behind (hp : ∀ stop c, (p stop c).Consumes (min 1 c.rest.length) c)
    (before : List α) (hturns : c.rest.length ≤ turns.length) :
    piecesInto [] p turns before.reverse stop c = (piecesUntil [] p stop c).map (before ++ ·) :=
  piecesInto_behind hp before [] hturns (Nat.le_refl _)

open Grammar in
/-- Pieces that are read whatever stands behind them are read, and the loop goes on with what
stands behind all of them. -/
theorem piecesInto_row {ps : Row α} (hstarts : ∀ q ∈ ps, Begins starts q.2)
    (hfollow : ∀ k ∈ starts, k ∉ follow)
    (hp : ∀ q ∈ ps, ∀ rest, Clear follow rest → Leads p q.2 q.1 rest) (hrest : Clear follow rest)
    (hturns : ps.length ≤ turns.length) (acc : List α) (stop : Token) (made : List Report) :
    piecesInto [] p turns acc stop ⟨ps.tokens ++ rest, made⟩ =
      piecesInto [] p (turns.drop ps.length) (ps.trees.reverse ++ acc) stop ⟨rest, made⟩ := by
  induction ps generalizing turns acc with
  | nil => rfl
  | cons q ps ih =>
    obtain ⟨hq, hps⟩ := List.forall_mem_cons.1 hstarts
    obtain ⟨hread, hp⟩ := List.forall_mem_cons.1 hp
    obtain _ | ⟨turn, turns⟩ := turns
    · cases hturns
    have htokens : Row.tokens (q :: ps) ++ rest = q.2 ++ (Row.tokens ps ++ rest) := by
      rw [Row.tokens, List.flatMap_cons, List.append_assoc]
      rfl
    have hlead := hread _ (hrest.tokens hps hfollow) stop made
    obtain ⟨t, us, hts, -⟩ := hq
    calc piecesInto [] p (turn :: turns) acc stop ⟨Row.tokens (q :: ps) ++ rest, made⟩
        = (p >>= fun a => piecesInto [] p turns (a :: acc)) stop
            ⟨q.2 ++ (Row.tokens ps ++ rest), made⟩ := by rw [htokens, hts]; rfl
      _ = piecesInto [] p turns (q.1 :: acc) stop ⟨Row.tokens ps ++ rest, made⟩ := by
        change Rule.bind p _ stop _ = _
        rw [Rule.bind, hlead]
      _ = piecesInto [] p (turns.drop ps.length) (Row.trees ps.reverse ++ q.1 :: acc) stop
            ⟨rest, made⟩ := by
        rw [ih hps hp (Nat.le_of_succ_le_succ hturns)]
        simp [Row.trees]
      _ = _ := by simp [Row.trees]

end

end Rule

namespace Grammar
open Rule

/-- The rule for programs behind declarations that are derived. -/
theorem program_behind {ds : Row Stmt} (hds : ∀ d ∈ ds, Derives room (.declaration d.1) d.2)
    (hrest : Clear [.kwElse] rest) (stop : Token) (made : List Report) :
    program room stop ⟨ds.tokens ++ rest, made⟩ =
      (program room stop ⟨rest, made⟩).map (ds.trees ++ ·) := by
  have hstarts (d) (hd : d ∈ ds) : Begins declarationStarts d.2 := (hds d hd).begins _ rfl
  have hlen : ds.length ≤ ds.tokens.length := Row.length_le_tokens ds fun d hd => by
    obtain ⟨t, ts, hts, -⟩ := hstarts d hd
    rw [hts]
    nofun
  calc program room stop ⟨ds.tokens ++ rest, made⟩
      = piecesInto [] (declaration room) ((ds.tokens ++ rest).drop ds.length)
          (ds.trees.reverse ++ []) stop ⟨rest, made⟩ :=
        piecesInto_row hstarts (by decide) (fun d hd => (hds d hd).read) hrest
          (hlen.trans (by simp)) [] stop made
    _ = piecesInto [] (declaration room) ((ds.tokens ++ rest).drop ds.length)
          ds.trees.reverse stop ⟨rest, made⟩ := by rw [List.append_nil]
    _ = (program room stop ⟨rest, made⟩).map (ds.trees ++ ·) :=
        piecesUntil_behind (consumes_declaration_statement room).1 ds.trees
          (by simp only [List.length_drop, List.length_append]; omega)

theorem recovering_ne_gaveUp {p : Rule Stmt} : recovering p stop c ≠ .gaveUp next := by
  unfold recovering
  cases p stop c <;> nofun

theorem declaration_ne_gaveUp : declaration room stop c ≠ .gaveUp next := by
  cases room with
  | zero => nofun
  | succ room => exact recovering_ne_gaveUp

/-- A declaration that gives up is missing from the program, which is read all the same. -/
theorem program_ne_gaveUp : program room stop c ≠ .gaveUp next := by
  have hloop (turns : List Token) (acc : List Stmt) (c : Cursor) :
      piecesInto [] (declaration room) turns acc stop c ≠ .gaveUp next := by
    induction turns generalizing acc c with
    | nil => nofun
    | cons turn turns ih =>
      obtain ⟨_ | ⟨t, rest⟩, made⟩ := c
      · rw [piecesInto_nil]
        nofun
      · rw [piecesInto_cons]
        change Rule.bind (declaration room) _ stop _ ≠ _
        unfold Rule.bind
        cases hr : declaration room stop ⟨t :: rest, made⟩ with
        | read a next => exact ih _ _
        | gaveUp => exact absurd hr declaration_ne_gaveUp
        | tooDeep => nofun
  exact hloop c.rest [] c

/-- What stands behind a program that is read without a report is read as if it stood alone: its
statements come behind those of the program, with the broken ones missing as ever, and its reports
are all the reports that are made. Only an `else` at its front could belong to the program. -/
theorem readProgram_append (hts : ∀ t ∈ ts, t.kind ≠ .eof) (hstop : stop.kind = .eof)
    (h : readProgram room (ts ++ [stop]) = .finished ss []) (hus : ∀ t ∈ us, t.kind ≠ .eof)
    (hlast : last.kind = .eof) (helse : ∀ t ∈ us.head?, t.kind ≠ .kwElse) :
    readProgram room (ts ++ (us ++ [last])) =
      (readProgram room (us ++ [last])).map (ss ++ ·) := by
  obtain ⟨hds⟩ := derives_of_readProgram hts hstop h
  have hboth := List.forall_mem_append.2 ⟨hts, hus⟩
  have hclear : Clear [.kwElse] us := fun t ht => by simpa using helse t ht
  rw [readProgram, readProgram, ← List.append_assoc, run_of_ends hboth hlast,
    run_of_ends hus hlast, program_behind hds hclear last []]
  cases hr : program room last ⟨us, []⟩ with
  | read value next => rfl
  | gaveUp next => exact absurd hr program_ne_gaveUp
  | tooDeep made => rfl

/-- A conditional without an `else` in front of a declaration that is broken and one that is not. -/
theorem readProgram_append_of_conditional :
    ∃ ts us first second, (scan (String.toList "if (a) print 1;")).tokens = ts ++ [first] ∧
      (scan (String.toList "var 1; print 2;")).tokens = us ++ [second] ∧
      ∃ ss, readProgram 20 (ts ++ [first]) = .finished ss [] ∧ ss.length = 1 ∧
        (readProgram 20 (us ++ [second])).reports.length = 1 ∧
        readProgram 20 (ts ++ (us ++ [second])) =
          (readProgram 20 (us ++ [second])).map (ss ++ ·) := by
  obtain ⟨ts, hfirst, hts⟩ := scan_ends (String.toList "if (a) print 1;")
  obtain ⟨us, hsecond, hus⟩ := scan_ends (String.toList "var 1; print 2;")
  obtain ⟨ss, hvalue, hss⟩ : ∃ ss, (readProgram 20 (scan (String.toList
      "if (a) print 1;")).tokens).value? = some ss ∧ ss.length = 1 :=
    ⟨_, (Option.some_get (by decide +kernel)).symm, by decide +kernel⟩
  have hread := Reading.finished_of_value? hvalue (by decide +kernel)
  have hreports : (readProgram 20 (scan (String.toList "var 1; print 2;")).tokens).reports.length
      = 1 := by decide +kernel
  have hfront : ∀ t ∈ (scan (String.toList "var 1; print 2;")).tokens.head?, t.kind ≠ .kwElse := by
    decide +kernel
  rw [hsecond] at hreports hfront
  rw [hfirst] at hread
  refine ⟨ts, us, _, _, hfirst, hsecond, ss, hread, hss, hreports,
    readProgram_append hts rfl hread hus rfl fun t ht => ?_⟩
  refine hfront t ?_
  rw [List.head?_append, Option.mem_def.1 ht]
  rfl

end Grammar

end LoxLang
