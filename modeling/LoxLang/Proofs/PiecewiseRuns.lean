import LoxLang.Proofs.Piecewise.Accepting
import LoxLang.Proofs.Piecewise.Interpreting

/-!
# Sources run piece by piece

To run a source and then another one is to run the two of them as one source, with a newline in
between (`piecewise_run_eq_whole`). The same is printed, the same globals are left and the answer is
the same; an error is reported where its token stands in the one source.
-/

namespace LoxLang

/-! ## What becomes of a run -/

namespace Ending

/-- The report that a run gets for its end. -/
def report? : Ending → Option Report
  | .failed (.error token e) => some (.atRuntime (some token) e.message)
  | .failed (.overflow call) => some (.atRuntime call Escape.overflowMessage)
  | _ => none

/-- The answer of a session after a run. -/
def answer (hadRuntimeError : Bool) : Ending → Except Escape Bool
  | .value _ => .ok !hadRuntimeError
  | .failed (.error ..) | .failed (.overflow _) => .ok false
  | .failed (.fault f) => .error f.escape
  | .unfinished => .error .interrupted

variable {P : Pairing}

theorem Matches.answer (h : Matches P e e') (b : Bool) : e'.answer b = e.answer b := by
  cases h with
  | failed hf => cases hf <;> rfl
  | _ => rfl

theorem Matches.report?_eq_none (h : Matches P e e') (he : e.report? = none) :
    e'.report? = none := by
  cases h with
  | failed hf => cases hf <;> first | rfl | cases he
  | _ => rfl

/-- A report other than of an overflow has a token. -/
theorem error_of_report? (h : report? e = some r) (hr : r.message ≠ Escape.overflowMessage) :
    ∃ t error, e = .failed (.error t error) ∧ r = .atRuntime (some t) error.message := by
  cases e with
  | value | unfinished => cases h
  | failed f =>
    cases f with
    | error t error =>
      cases h
      exact ⟨t, error, rfl, rfl⟩
    | overflow call =>
      cases h
      cases call <;> exact absurd rfl hr
    | fault f => cases h

theorem Matches.error (h : Matches P (.failed (.error t e)) e') :
    ∃ t', e' = .failed (.error t' e) ∧ P.rel t t' := by
  cases h with
  | failed hf =>
    cases hf with
    | error ht => exact ⟨_, rfl, ht⟩

theorem Matches.report?_eq_some (h : Matches .equal e e') (he : e.report? = some r)
    (hr : r.message ≠ Escape.overflowMessage) : e'.report? = some r := by
  obtain ⟨t, error, rfl, -⟩ := error_of_report? he hr
  obtain ⟨t', rfl, hrel⟩ := h.error
  cases hrel
  exact he

end Ending

/-- One report more, if any. -/
theorem append_toArray_eq_push {rs : Array Report} {r? : Option Report} :
    rs ++ r?.toArray = rs.push q ↔ r? = some q := by
  rw [← Array.toList_inj, Array.toList_append, Array.toList_push, List.append_cancel_left_eq]
  cases r? <;> simp

/-- A conduct of a session that does what a run makes of it. -/
structure Conduct.Follows (s : Session) (r : Run) (c : Conduct Bool) : Prop where
  printed : c.printed = r.printed
  memory : c.session.memory = r.memory
  reports : c.session.log.reports = s.log.reports ++ r.ending.report?.toArray
  answer : c.answer = r.ending.answer s.log.hadRuntimeError

namespace Conduct.Follows

variable {s : Session} {r : Run} {c : Conduct Bool}

theorem reports_eq_push (h : Follows s r c) :
    c.session.log.reports = s.log.reports.push q ↔ r.ending.report? = some q := by
  rw [h.reports, append_toArray_eq_push]

theorem reports_eq (h : Follows s r c) :
    c.session.log.reports = s.log.reports ↔ r.ending.report? = none := by
  rw [h.reports]
  cases r.ending.report? <;> simp

end Conduct.Follows

namespace Session

theorem conclude_follows (s : Session) (r : Run) :
    Conduct.Follows s r
      { s.conclude r with
        answer := (s.conclude r).answer.map fun _ =>
          !(s.conclude r).session.log.hadRuntimeError } := by
  obtain ⟨ending, printed, memory⟩ := r
  cases ending with
  | value v | unfinished => exact ⟨rfl, rfl, Array.append_empty.symm, rfl⟩
  | failed f =>
    cases f with
    | fault f => exact ⟨rfl, rfl, Array.append_empty.symm, rfl⟩
    | error t e =>
      refine ⟨rfl, rfl, rfl, congrArg Except.ok ?_⟩
      simp [conclude, Log.runtimeError]
    | overflow call =>
      refine ⟨rfl, rfl, rfl, congrArg Except.ok ?_⟩
      simp [conclude, Log.runtimeError]

theorem follows_of_accepted (cfg : Config) {s : Session}
    (h : ProgramAccepted cfg.room cfg.levels source program)
    (hs : s.log.hadError = false) (path : String) :
    Conduct.Follows s (s.memory.interpret cfg.setting cfg.steps (resolveProgram program).1)
      (s.run cfg path source) := by
  rw [run_of_accepted h hs]
  obtain ⟨hprinted, hmemory, hreports, hanswer⟩ :=
    conclude_follows ⟨s.log.register path source, s.memory⟩
      (s.memory.interpret cfg.setting cfg.steps (resolveProgram program).1)
  exact ⟨hprinted, hmemory, hreports, hanswer⟩

/-- A source that is run with success is accepted, and its program runs to its end. The session had
no report before that, and has none now. -/
theorem accepted_of_success {s : Session} (h : (s.run cfg path source).answer = .ok true) :
    s.log.hadError = false ∧ ∃ program, ProgramAccepted cfg.room cfg.levels source program ∧
      let r := s.memory.interpret cfg.setting cfg.steps (resolveProgram program).1
      (∃ v, r.ending = .value v) ∧ (s.run cfg path source).printed = r.printed ∧
        (s.run cfg path source).session = ⟨s.log.register path source, r.memory⟩ := by
  obtain ⟨hs, program, haccepted⟩ :
      s.log.hadError = false ∧ ∃ program, ProgramAccepted cfg.room cfg.levels source program := by
    simp only [run, scanSource] at h
    cases hread : (Grammar.readProgram cfg.room (scan source.toList).tokens).value? with
    | none =>
      rw [hread] at h
      cases h
    | some program =>
      simp only [hread, report, Log.hadError_complainAll, Log.register] at h
      split at h
      · cases h
      · split at h
        · cases h
        · next hwalked =>
          rw [Bool.not_eq_true] at hwalked
          rw [(walkProgram_eq hwalked).2] at h
          split at h
          · cases h
          · next hclean =>
            simp only [Bool.or_eq_true, not_or, Bool.not_eq_true, Bool.not_eq_false',
              List.isEmpty_iff] at hclean
            obtain ⟨⟨⟨hs, hscanned⟩, hgrammar⟩, hresolved⟩ := hclean
            exact ⟨hs, program, hread, hwalked, by
              rw [programReports, hscanned, hgrammar, hresolved]; rfl⟩
  refine ⟨hs, program, haccepted, ?_⟩
  have hanswer := (follows_of_accepted cfg haccepted hs path).answer
  rw [h] at hanswer
  rw [run_of_accepted haccepted hs]
  dsimp only [conclude]
  cases hending : (s.memory.interpret cfg.setting cfg.steps (resolveProgram program).1).ending with
  | value v => exact ⟨⟨v, rfl⟩, rfl, rfl⟩
  | unfinished =>
    rw [hending] at hanswer
    cases hanswer
  | failed f =>
    rw [hending] at hanswer
    cases f <;> cases hanswer

theorem globals_of_matches {s s' : Session} (h : s.memory.heap.Matches P s'.memory.heap) :
    s'.globals = s.globals := by
  simp only [globals, h.frames, h.looks.text]

end Session

theorem lineOut_append (a b : Array String) : lineOut (a ++ b) = lineOut a ++ lineOut b := by
  have hfold (lines : List String) (out : String) :
      lines.foldl (fun out line => out ++ line ++ "\n") out =
        out ++ lines.foldl (fun out line => out ++ line ++ "\n") "" := by
    induction lines generalizing out with
    | nil => rw [List.foldl_nil, List.foldl_nil, String.append_empty]
    | cons line lines ih =>
      rw [List.foldl_cons, List.foldl_cons, ih, ih ("" ++ line ++ "\n"), String.empty_append,
        String.append_assoc, String.append_assoc, String.append_assoc]
  simp only [lineOut, ← Array.foldl_toList, Array.toList_append, List.foldl_append]
  exact hfold ..

/-- Two runs that match are seen alike in sessions with the same flag. -/
theorem Conduct.Follows.alike {s s' : Session} (h : Follows s r c) (h' : Follows s' r' c')
    (hm : r.Matches P out r') (hs : s'.log.hadRuntimeError = s.log.hadRuntimeError) :
    c'.output = lineOut out ++ c.output ∧ c'.session.globals = c.session.globals ∧
      c'.answer = c.answer := by
  refine ⟨?_, Session.globals_of_matches (P := P) ?_, ?_⟩
  · rw [output, output, h.printed, h'.printed, hm.printed, lineOut_append]
  · rw [h.memory, h'.memory]
    exact hm.heap
  · rw [h.answer, h'.answer, hs, hm.ending.answer]

/-- A run that matches a silent one is silent. -/
theorem Conduct.Follows.silent {s s' : Session} (h : Follows s r c) (h' : Follows s' r' c')
    (hm : r.Matches P out r') (hc : c.session.log.reports = s.log.reports) :
    c'.session.log.reports = s'.log.reports :=
  h'.reports_eq.2 (hm.ending.report?_eq_none (h.reports_eq.1 hc))

/-- Of two runs with the same tokens, both report the same error. -/
theorem Conduct.Follows.same_report {s s' : Session} (h : Follows s r c) (h' : Follows s' r' c')
    (hm : r.Matches .equal out r') (hc : c.session.log.reports = s.log.reports.push q)
    (hno : q.message ≠ Escape.overflowMessage) :
    c'.session.log.reports = s'.log.reports.push q :=
  h'.reports_eq_push.2 (hm.ending.report?_eq_some (h.reports_eq_push.1 hc) hno)

/-! ## Whose token it is -/

/-- The tokens of a source put down by so many lines in two ways, and the tokens in memory, which
stay where they are. -/
def Pairing.placed (source : List Char) (h : Heap) (d d' : Nat) : Pairing where
  rel t t' := (∃ u ∈ words source, t = u.down d ∧ t' = u.down d') ∨ (h.Holds t ∧ t' = t)
  kind := by rintro _ _ (⟨u, -, rfl, rfl⟩ | ⟨-, rfl⟩) <;> rfl
  lexeme := by rintro _ _ (⟨u, -, rfl, rfl⟩ | ⟨-, rfl⟩) <;> rfl

theorem Token.down_injective (k : Nat) : Function.Injective (Token.down k) := by
  rintro ⟨kind, lexeme, literal, line, column⟩ ⟨kind', lexeme', literal', line', column'⟩ h
  simpa [down] using h

/-- No token in memory is further down than some line. -/
theorem Heap.exists_line_bound (h : Heap) : ∃ L, ∀ t, h.Holds t → t.line ≤ L := by
  let held := h.closures.toList.flatMap (·.declaration.tokens)
  refine ⟨(held.map Token.line).max?.getD 0, fun t ⟨c, hc, ht⟩ => ?_⟩
  have hheld : t ∈ held := List.mem_flatMap.2 ⟨c, hc.val, ht⟩
  exact List.le_max?_getD_of_mem (List.mem_map_of_mem hheld)

/-- If the run of a program fails, so it does at every place, and with the token that it fails at
there: the program's own one, or one that was in memory before. -/
theorem Memory.exists_own {source : List Char} {mem : Memory} {program : Nat → List Stmt}
    (hm : ∀ d d', d ≤ d' →
      Matches (.placed source mem.heap d d') (.stmts (program d)) (.stmts (program d')))
    {s : Setting} (he : (mem.interpret s n (program 0)).ending = .failed (.error t e)) :
    ∃ own : Bool, (if own then t ∈ words source else mem.heap.Holds t) ∧
      ∀ d, (mem.interpret s n (program d)).ending =
        .failed (.error (if own then t.down d else t) e) := by
  have hpair (d d' : Nat) (hle : d ≤ d') :
      Ending.Matches (.placed source mem.heap d d') (mem.interpret s n (program d)).ending
        (mem.interpret s n (program d')).ending := by
    have hheap : mem.heap.Matches (.placed source mem.heap d d') mem.heap :=
      Heap.matches_self fun t ht => Or.inr ⟨ht, rfl⟩
    exact (Memory.interpret_matches hheap (hm d d' hle) s n).ending
  have herror (d : Nat) : ∃ t, (mem.interpret s n (program d)).ending = .failed (.error t e) := by
    have hending := hpair 0 d (Nat.zero_le d)
    rw [he] at hending
    obtain ⟨t', ht', -⟩ := hending.error
    exact ⟨t', ht'⟩
  obtain ⟨L, hL⟩ := mem.heap.exists_line_bound
  -- Put down below all that is in memory, the program has tokens that are not in memory.
  obtain ⟨low, hlow⟩ := herror (L + 1)
  have hplaced (d : Nat) : ∃ t, (mem.interpret s n (program d)).ending = .failed (.error t e) ∧
      ((∃ u ∈ words source, t = u.down d ∧ low = u.down (L + 1)) ∨
        (mem.heap.Holds t ∧ low = t)) := by
    obtain ⟨t, ht⟩ := herror d
    refine ⟨t, ht, ?_⟩
    rcases Nat.le_total d (L + 1) with hle | hle
    · have hending := hpair d (L + 1) hle
      rw [ht, hlow] at hending
      obtain ⟨_, ⟨⟩, hrel⟩ := hending.error
      exact hrel
    · have hending := hpair (L + 1) d hle
      rw [ht, hlow] at hending
      obtain ⟨_, ⟨⟩, ⟨u, hu, hlow, ht⟩ | ⟨hheld, rfl⟩⟩ := hending.error
      · exact .inl ⟨u, hu, ht, hlow⟩
      · exact .inr ⟨hheld, rfl⟩
  obtain ⟨t', ht', hfirst⟩ := hplaced 0
  rw [he] at ht'
  cases ht'
  rcases hfirst with ⟨u, hu, rfl, rfl⟩ | ⟨hheld, rfl⟩
  · refine ⟨true, hu, fun d => ?_⟩
    obtain ⟨t, ht, ⟨u', -, rfl, hu'⟩ | ⟨hheld, rfl⟩⟩ := hplaced d
    · cases Token.down_injective _ hu'
      exact ht
    · have := hL _ hheld
      simp only [Token.down] at this
      omega
  · refine ⟨false, hheld, fun d => ?_⟩
    obtain ⟨t, ht, ⟨u', -, -, rfl⟩ | ⟨-, rfl⟩⟩ := hplaced d
    · have := hL _ hheld
      simp only [Token.down] at this
      omega
    · exact ht

/-- A report further down. -/
def Report.down (k : Nat) (r : Report) : Report := { r with line := r.line.map (· + k) }

/-- Whose the token is that a report of a source's run is about. The report moves down with the
source if the token is the source's own, and it stays as it is if the token was in memory before: it
comes from an earlier source. -/
structure Session.Blames (s : Session) (cfg : Config) (path source : String) (own : Bool)
    (r : Report) : Prop where
  token : ∃ t, r = .atRuntime (some t) r.message ∧
    if own then t ∈ (scan source.toList).tokens else s.memory.heap.Holds t
  placed (d : Nat) : (s.run cfg path (lowered d source)).session.log.reports =
    s.log.reports.push (r.down (if own then d else 0))

/-- The programs of a source at every place. -/
theorem ProgramAccepted.exists_placed (h : ProgramAccepted room levels source program)
    (heap : Heap) :
    ∃ program : Nat → List Stmt,
      (∀ d, ProgramAccepted room levels (LoxLang.lowered d source) (program d)) ∧
      ∀ d d', d ≤ d' → Matches (.placed source.toList heap d d')
        (.stmts (resolveProgram (program d)).1) (.stmts (resolveProgram (program d')).1) := by
  have hall (d : Nat) :
      ∃ program, ProgramAccepted room levels (LoxLang.lowered d source) program := by
    have hself : ∀ t ∈ words source.toList,
        (Pairing.placed source.toList heap 0 d).rel t (t.down d) := fun t ht =>
      Or.inl ⟨t, ht, rfl, rfl⟩
    obtain ⟨program, haccepted, -⟩ := h.lowered hself
    exact ⟨program, haccepted⟩
  choose program haccepted using hall
  refine ⟨program, haccepted, fun d d' hle => ?_⟩
  obtain ⟨j, rfl⟩ := Nat.exists_eq_add_of_le hle
  have hlower : ∀ t ∈ words (LoxLang.lowered d source).toList,
      (Pairing.placed source.toList heap d (d + j)).rel t (t.down j) := by
    rw [(scan_lowered d source).1]
    intro t ht
    obtain ⟨u, hu, rfl⟩ := List.mem_map.1 ht
    exact Or.inl ⟨u, hu, rfl, u.down_down d j⟩
  obtain ⟨program', haccepted', hm⟩ := (haccepted d).lowered hlower
  rw [lowered_lowered] at haccepted'
  rw [(haccepted _).eq haccepted'] at hm
  exact hm.resolveProgram.1

theorem Session.exists_blames (cfg : Config) {s : Session}
    (h : ProgramAccepted cfg.room cfg.levels source program) (hs : s.log.hadError = false)
    (hr : (s.run cfg path source).session.log.reports = s.log.reports.push r)
    (hno : r.message ≠ Escape.overflowMessage) : ∃ own, s.Blames cfg path source own r := by
  obtain ⟨program, haccepted, hm⟩ := h.exists_placed s.memory.heap
  have hfollows (d : Nat) := follows_of_accepted cfg (haccepted d) hs path
  have hfirst := hfollows 0
  rw [lowered_zero] at hfirst
  obtain ⟨t, e, hending, hreport⟩ := Ending.error_of_report? (hfirst.reports_eq_push.1 hr) hno
  obtain ⟨own, htoken, hall⟩ := Memory.exists_own hm hending
  refine ⟨own, ⟨t, ?_, ?_⟩, fun d => ?_⟩
  · rw [hreport]
    rfl
  · cases own with
    | true => exact List.mem_append_left _ htoken
    | false => exact htoken
  · rw [(hfollows d).reports_eq_push, hall d, hreport]
    cases own <;> rfl

/-- Let a source be run with success, and let a second one be without a report before its run. To
run the second one after the first is to run the two as one source, with a newline in between and
with some steps more: what is printed by both is printed, the globals and their texts are the same,
and so is the answer. A run-time error other than an overflow is reported with the same message,
moved down by the lines of the first source if the second one is to blame, and on the same line if
an earlier source is. -/
theorem piecewise_run_eq_whole {s : Session} {cfg : Config}
    {first second path : String} (hfirst : (s.run cfg path first).answer = .ok true)
    (hsecond : ProgramAccepted cfg.room cfg.levels second program) (path' : String) :
    ∃ k ≤ cfg.steps, ∀ n,
      let before := s.run cfg path first
      let after := before.session.run { cfg with steps := n } path' second
      let whole := s.run { cfg with steps := k + n } path (first ++ "\n" ++ second)
      whole.output = before.output ++ after.output ∧
      whole.session.globals = after.session.globals ∧
      whole.answer = after.answer ∧
      (after.session.log.reports = s.log.reports → whole.session.log.reports = s.log.reports) ∧
      ∀ r, after.session.log.reports = s.log.reports.push r →
        r.message ≠ Escape.overflowMessage →
        ∃ own, before.session.Blames { cfg with steps := n } path' second own r ∧
          whole.session.log.reports =
            s.log.reports.push (r.down (if own then (Text.lines first.toList).length else 0)) := by
  obtain ⟨hs, program₁, haccepted, ⟨v, hvalue⟩, hprinted, hsession⟩ :=
    Session.accepted_of_success hfirst
  obtain ⟨program₂, hplaced, hm⟩ := hsecond.exists_placed (s.run cfg path first).session.memory.heap
  generalize hlines : (Text.lines first.toList).length = lines
  obtain ⟨k, hle, hrun⟩ := Memory.exists_interpret_append hvalue (resolveProgram (program₂ lines)).1
  have hbelow : ProgramAccepted cfg.room cfg.levels
      (lowered (Text.lines first.toList).length second) (program₂ lines) := hlines ▸ hplaced lines
  refine ⟨k, hle, fun n => ?_⟩
  -- What the first conduct is does not matter any more, only what is known of it.
  generalize s.run cfg path first = before at hsession hprinted hm ⊢
  obtain ⟨hmemory, hclean, hreports, hflag⟩ : before.session.memory =
        (s.memory.interpret cfg.setting cfg.steps (resolveProgram program₁).1).memory ∧
      before.session.log.hadError = false ∧ before.session.log.reports = s.log.reports ∧
      before.session.log.hadRuntimeError = s.log.hadRuntimeError := by
    rw [hsession]
    exact ⟨rfl, hs, rfl, rfl⟩
  have hfollows (d : Nat) := Session.follows_of_accepted { cfg with steps := n }
    (hplaced d) hclean path'
  have hafter := hfollows 0
  rw [lowered_zero] at hafter
  have hwhole := Session.follows_of_accepted { cfg with steps := k + n }
    (haccepted.append hsecond hbelow) hs path
  rw [resolveProgram_append] at hwhole
  have hself : before.session.memory.heap.Matches
      (.placed second.toList before.session.memory.heap 0 lines) before.session.memory.heap :=
    Heap.matches_self fun t ht => Or.inr ⟨ht, rfl⟩
  have hmoved := Memory.interpret_matches hself (hm 0 lines (Nat.zero_le _)) cfg.setting n
  have hjoined := hrun n
  rw [← hmemory, ← hprinted] at hjoined
  obtain ⟨houtput, hglobals, hanswer⟩ := hafter.alike (hfollows lines) hmoved rfl
  obtain ⟨houtput', hglobals', hanswer'⟩ := (hfollows lines).alike hwhole hjoined hflag.symm
  refine ⟨?_, hglobals'.trans hglobals, hanswer'.trans hanswer, fun hr => ?_, fun r hr hno => ?_⟩
  · have hnone : lineOut #[] = "" := rfl
    rw [houtput', houtput, hnone, String.empty_append]
    rfl
  · rw [← hreports] at hr
    exact (hfollows lines).silent hwhole hjoined (hafter.silent (hfollows lines) hmoved hr)
  · rw [← hreports] at hr
    obtain ⟨own, hblames⟩ := Session.exists_blames { cfg with steps := n } hsecond hclean hr hno
    exact ⟨own, hblames, (hfollows lines).same_report hwhole hjoined (hblames.placed lines) hno⟩

/-- A function of the first source fails when the second one calls it: the report is the same, on
the line of the first source. -/
theorem piecewise_run_eq_whole_of_called_function :
    let cfg : Config := ⟨40, 40, ⟨100, fun _ => 0⟩, 1000⟩
    let first := "fun f(x) {
      print x;
      return -x; }"
    let second := "var a = true;
      f(a);"
    let s := Session.start false
    let before := s.run cfg "a.lox" first
    let after := before.session.run cfg "b.lox" second
    let r : Report := ⟨.runtime, "Operand must be a number.", some 3, "", 14, "-"⟩
    before.answer = .ok true ∧ after.session.log.reports = #[r] ∧
      ∃ program, ProgramAccepted cfg.room cfg.levels second program ∧
      ∃ k ≤ 1000,
        let whole := s.run { cfg with steps := k + 1000 } "a.lox" (first ++ "\n" ++ second)
        whole.output = before.output ++ after.output ∧ whole.answer = after.answer ∧
          ∃ own : Bool, whole.session.log.reports = #[r.down (if own then 3 else 0)] := by
  intro cfg first second s before after r
  have hbefore : before.answer = .ok true := by decide +kernel
  have hafter : after.session.log.reports = #[r] := by decide +kernel
  obtain ⟨program, haccepted⟩ : ∃ program, ProgramAccepted cfg.room cfg.levels second program :=
    ⟨_, (Option.some_get (by decide +kernel)).symm, by decide +kernel, by decide +kernel⟩
  obtain ⟨k, hle, hwhole⟩ := piecewise_run_eq_whole hbefore haccepted "b.lox"
  obtain ⟨houtput, -, hanswer, -, hreport⟩ := hwhole 1000
  obtain ⟨own, -, hreports⟩ := hreport r hafter (by decide)
  have hlines : (Text.lines first.toList).length = 3 := by decide +kernel
  rw [hlines] at hreports
  exact ⟨hbefore, hafter, program, haccepted, k, hle, houtput, hanswer, own, hreports⟩

end LoxLang
