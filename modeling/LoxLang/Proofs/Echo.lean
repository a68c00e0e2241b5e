import LoxLang.Proofs.InnerRuns
import LoxLang.Proofs.Parsing.Room

/-!
# Echoing agrees with printing

An input that is an expression is accepted as the operand of a `print` statement too: its tokens
stand further to the right, and the tree is the same on the same lines
(`ExpressionAccepted.printing`). The statement evaluates the expression with two constructs waiting
around it, so it does what the expression does by itself and prints its value, or it fails with the
same error (`Session.run_printing`). It needs a little more room, stack and steps, and with less of
them it is cut short or does the same (`echo_agrees_with_print`).
-/

namespace LoxLang

/-! ## The statement -/

/-- The statement that prints an expression. Its semicolon stands on a line of its own, since the
expression may end in a comment. -/
def printing (source : String) : String := "print " ++ source ++ "\n;"

/-- A place with so many characters more in front of the text. -/
def Place.indent (k : Nat) (p : Place) : Place := if p.line = 1 then ⟨1, p.column + k⟩ else p

theorem Place.after_indent (k : Nat) {p : Place} (h : 1 ≤ p.line) (cs : List Char) :
    (p.indent k).after cs = (p.after cs).indent k := by
  induction cs generalizing p with
  | nil => rfl
  | cons c cs ih =>
    have hstep : (p.indent k).step c = (p.step c).indent k ∧ 1 ≤ (p.step c).line := by
      unfold step indent
      split <;> split <;> simp_all <;> omega
    simp only [after, List.foldl_cons, hstep.1] at ih ⊢
    exact ih hstep.2

theorem segments_print (cs : List Char) :
    segments ("print ".toList ++ cs) =
      .mark .kwPrint "print".toList :: .blank ' ' :: segments cs := by
  have hword : Segment.next 'p' ("rint ".toList ++ cs) = .mark .kwPrint "print".toList := by
    rfl
  have hblank : Segment.next ' ' cs = .blank ' ' := rfl
  change segments ('p' :: ("rint ".toList ++ cs)) = _
  rw [segments_cons, hword]
  change _ :: segments (' ' :: cs) = _
  rw [segments_cons, hblank]
  rfl

/-- A text behind the keyword has its own words, further to the right. -/
theorem scan_print (cs : List Char) :
    words ("print ".toList ++ cs) =
        ⟨.kwPrint, "print", none, 1, 1⟩ :: (words cs).map (.put (.indent 6)) ∧
      ((scan cs).reports = [] → (scan ("print ".toList ++ cs)).reports = []) := by
  have hplaced : Place.start.ofSegments (segments ("print ".toList ++ cs)) =
      (⟨1, 1⟩, .mark .kwPrint "print".toList) :: (⟨1, 6⟩, .blank ' ') ::
        (Place.start.ofSegments (segments cs)).map (Prod.map (.indent 6) id) := by
    rw [segments_print, Place.ofSegments_cons, Place.ofSegments_cons,
      ← Place.ofSegments_map (Place.after_indent 6 (Nat.le_refl 1))]
    rfl
  constructor
  · rw [words, hplaced]
    change (⟨.kwPrint, "print", none, 1, 1⟩ : Token) :: List.filterMap _ (List.map _ _) = _
    rw [List.filterMap_map, words, List.map_filterMap]
    congr 2
    funext p
    exact p.2.token?_put (.indent 6) p.1
  · intro h
    rw [scan] at h ⊢
    dsimp only at h ⊢
    rw [hplaced, List.filterMap_cons_none rfl, List.filterMap_cons_none rfl, List.filterMap_map,
      List.filterMap_eq_nil_iff]
    intro p hp
    exact (p.2.report?_eq_none_iff p.1 _).1 (List.filterMap_eq_nil_iff.1 h _ hp)

theorem scan_printing {source : String} (h : (scan source.toList).reports = []) :
    (∃ semicolon : Token, semicolon.kind = .semicolon ∧ words (printing source).toList =
      ⟨.kwPrint, "print", none, 1, 1⟩ ::
        ((words source.toList).map (.put (.indent 6)) ++ [semicolon])) ∧
      (scan (printing source).toList).reports = [] := by
  have hchars : (printing source).toList =
      ("print ".toList ++ source.toList) ++ '\n' :: [';'] := by
    simp [printing]
  obtain ⟨hwords, hreports⟩ := scan_print source.toList
  obtain ⟨hwords', hreports'⟩ := @scan_append_newline _ [';'] (hreports h)
  have hsemicolon : words [';'] = [⟨.semicolon, ";", none, 1, 1⟩] := rfl
  rw [hchars]
  refine ⟨⟨.down (Text.lines ("print ".toList ++ source.toList)).length
    ⟨.semicolon, ";", none, 1, 1⟩, rfl, ?_⟩, hreports' rfl⟩
  rw [hwords', hwords, hsemicolon]
  rfl

/-! ## Acceptance -/

/-- Tokens that stand for one another are the same words on the same line. -/
def Pairing.sameLine : Pairing where
  rel t t' := t'.kind = t.kind ∧ t'.lexeme = t.lexeme ∧ t'.line = t.line
  kind h := h.1
  lexeme h := h.2.1

theorem Token.sameLine_indent (k : Nat) (t : Token) :
    Pairing.sameLine.rel t (t.put (.indent k)) := by
  refine ⟨rfl, rfl, ?_⟩
  simp only [put, Place.indent]
  split <;> simp_all

open Grammar in
/-- With an expression the statement that prints it is accepted, nested two deeper in the grammar
and one deeper in the tree; what it prints is the same expression on the same lines. -/
theorem ExpressionAccepted.printing {levels : Nat} (h : ExpressionAccepted room levels source e) :
    ∃ e', ProgramAccepted (room + 2) (levels + 1) (LoxLang.printing source) [.print e'] ∧
      ExprMatches .sameLine (resolveExpression e).1 (resolveExpression e').1 := by
  have hreports := h.reports
  simp only [expressionReports, List.append_eq_nil_iff] at hreports
  obtain ⟨⟨semicolon, hsemicolon, hwords⟩, hscanned⟩ := scan_printing hreports.1.1
  obtain ⟨e', hm, hd⟩ := h.derives.put fun t _ => t.sameLine_indent 6
  obtain ⟨hresolved, hlen⟩ := hm.resolveAlike .topLevel []
  refine ⟨e', .of_derives hscanned ?_ ?_ ?_, hresolved⟩
  · let ds : Row Stmt := [(.print e', words (LoxLang.printing source).toList)]
    have hds : ∀ d ∈ ds, Derives (room + 2) (.declaration d.1) d.2 :=
      List.forall_mem_singleton.2 (hwords ▸ .statement (.print rfl hd hsemicolon))
    simpa [ds, Row.trees, Row.tokens] using Derives.program hds
  · have hheight : e'.height ≤ levels := hm.height.trans_le h.height_le
    simpa [stmtsHeight, Stmt.height] using hheight
  · have hnone := hreports.2
    simp only [resolveExpression, List.map_eq_nil_iff] at hnone
    rw [hnone, List.length_nil, List.length_eq_zero_iff] at hlen
    simp [resolveProgram, resolveStmts, Stmt.resolve, hlen]

/-! ## Limits -/

/-- With less room a program is read as with more, or it is nested too deeply. -/
theorem Grammar.readProgram_of_le (hts : ∀ t ∈ ts, t.kind ≠ .eof) (hstop : stop.kind = .eof)
    (hle : n ≤ m) : (readProgram n (ts ++ [stop])).value? = none ∨
      readProgram n (ts ++ [stop]) = readProgram m (ts ++ [stop]) := by
  rw [readProgram, readProgram, run_of_ends hts hstop, run_of_ends hts hstop]
  rcases below_program hle stop ⟨ts, []⟩ with ⟨made, hdeep⟩ | hsame
  · exact .inl (by rw [hdeep]; rfl)
  · exact .inr (by rw [hsame])

/-- A program that is accepted is accepted with other room too, unless it is nested too deeply. -/
theorem ProgramAccepted.otherRoom (h : ProgramAccepted m levels source program) (n : Nat) :
    ProgramAccepted n levels source program ∨
      n < m ∧ (Grammar.readProgram n (scan source.toList).tokens).value? = none := by
  rcases Nat.lt_or_ge n m with hlt | hge
  · rcases Grammar.readProgram_of_le (fun _ => kind_ne_eof_of_mem_words)
      (rfl : (Token.endOf source.toList).kind = .eof) (Nat.le_of_lt hlt) with hnone | hsame
    · exact .inr ⟨hlt, hnone⟩
    · rw [← tokens_scan] at hsame
      refine .inl ⟨by rw [hsame]; exact h.read, h.walked, ?_⟩
      rw [programReports, hsame]
      exact h.reports
  · exact .inl (h.mono hge le_rfl)

/-- A run that neither is interrupted nor overflows is the same within all other limits that do not
stop it, and larger limits do not. -/
theorem Memory.perform_alike {s s' : Setting} (hclock : s'.clock = s.clock) {mem : Memory}
    (hended : (mem.perform s n task).ending ≠ .unfinished)
    (hno : ∀ token, (mem.perform s n task).ending ≠ .failed (.overflow token)) (n' : Nat) :
    mem.perform s' n' task = mem.perform s n task ∨
      ¬(s.depth ≤ s'.depth ∧ n ≤ n') ∧ ((mem.perform s' n' task).ending = .unfinished ∨
        ∃ token, (mem.perform s' n' task).ending = .failed (.overflow token)) := by
  let top : Setting := ⟨max s.depth s'.depth, s.clock⟩
  have hbelow : s.Below top := ⟨Nat.le_max_left .., rfl⟩
  have hbelow' : s'.Below top := ⟨Nat.le_max_right .., hclock.symm⟩
  have htop := (Memory.begins_perform hbelow (Nat.le_max_left n n') task mem).same hended hno
  have hrun := (Memory.begins_perform hbelow' (Nat.le_max_right n n') task mem).same
  by_cases hunfinished : (mem.perform s' n' task).ending = .unfinished ∨
      ∃ token, (mem.perform s' n' task).ending = .failed (.overflow token)
  · by_cases hlarge : s.depth ≤ s'.depth ∧ n ≤ n'
    · exact .inl ((Memory.begins_perform ⟨hlarge.1, hclock⟩ hlarge.2 task mem).same hended hno)
    · exact .inr ⟨hlarge, hunfinished⟩
  · rw [not_or, not_exists] at hunfinished
    exact .inl ((hrun hunfinished.1 hunfinished.2).symm.trans htop)

theorem Ending.Matches.stopped (h : Matches P e e')
    (he : e = .unfinished ∨ ∃ token, e = .failed (.overflow token)) :
    e' = .unfinished ∨ ∃ token, e' = .failed (.overflow token) := by
  rcases he with rfl | ⟨token, rfl⟩
  · cases h
    exact .inl rfl
  · cases h with
    | failed hf =>
      cases hf
      exact .inr ⟨_, rfl⟩

/-- A conduct that the limits of a configuration cut short. -/
def Conduct.CutShort (s : Session) (c : Conduct α) : Prop :=
  c.answer = .error .tooDeep ∨ c.answer = .error .interrupted ∨
    ∃ call, c.session.log.reports = s.log.reports.push (.atRuntime call Escape.overflowMessage)

/-- Limits that let a statement print what an expression evaluates to: it is nested two deeper in
the grammar and one deeper in the tree, two constructs more wait, and there are five steps more. -/
def Config.Surpasses (cfg' cfg : Config) : Prop :=
  cfg.room + 2 ≤ cfg'.room ∧ cfg.levels + 1 ≤ cfg'.levels ∧
    cfg.setting.depth + 2 ≤ cfg'.setting.depth ∧ cfg.steps + 5 ≤ cfg'.steps

namespace Session

theorem run_of_tooDeep {s : Session}
    (h : (Grammar.readProgram cfg.room (scan source.toList).tokens).value? = none) (path : String) :
    (s.run cfg path source).answer = .error .tooDeep := by
  simp [run, scanSource, h, stop]

/-- A program that would be accepted by a walk that may go deeper is given up by one that stops. -/
theorem run_of_stopped {s : Session} (h : ProgramAccepted cfg.room levels source program)
    (hstopped : (walkProgram cfg.levels program).stopped = true) (hs : s.log.hadError = false)
    (path : String) : (s.run cfg path source).answer = .error .tooDeep := by
  obtain ⟨hread, -, hreports⟩ := h
  obtain ⟨hfront, -⟩ := List.append_eq_nil_iff.1 hreports
  obtain ⟨hscanned, hgrammar⟩ := List.append_eq_nil_iff.1 hfront
  simp [run, scanSource, hscanned, hgrammar, hread, hstopped, report, Log.complainAll,
    Log.register, hs, stop]

/-- A run that is stopped by a limit is cut short. -/
theorem cutShort_of_follows {s : Session} {c : Conduct Bool} (h : Conduct.Follows s r c)
    (hr : r.ending = .unfinished ∨ ∃ token, r.ending = .failed (.overflow token)) :
    c.CutShort s := by
  rcases hr with hr | ⟨token, hr⟩
  · exact .inr (.inl (by rw [h.answer, hr]; rfl))
  · exact .inr (.inr ⟨token, h.reports_eq_push.2 (by rw [hr]; rfl)⟩)

/-- The statement that prints an accepted expression runs as the expression itself would be printed,
unless it is cut short. -/
theorem run_printing {s : Session} {cfg cfg' : Config} (hs : s.log.hadError = false)
    (h : ExpressionAccepted cfg.room cfg.levels source e)
    (hclock : cfg'.setting.clock = cfg.setting.clock) (path : String) {r : Run}
    (hr : s.memory.interpret (cfg.setting.deeper 2) (cfg.steps + 5)
      [.print (resolveExpression e).1] = r)
    (hended : r.ending ≠ .unfinished) (hno : ∀ token, r.ending ≠ .failed (.overflow token)) :
    ¬cfg'.Surpasses cfg ∧ (s.run cfg' path (printing source)).CutShort s ∨
      ∃ r', Conduct.Follows s r' (s.run cfg' path (printing source)) ∧
        r.Matches .sameLine #[] r' := by
  subst hr
  obtain ⟨e', haccepted, hm⟩ := h.printing
  rcases haccepted.otherRoom cfg'.room with haccepted | ⟨hlt, hnone⟩
  · by_cases hwalked : (walkProgram cfg'.levels [.print e']).stopped = true
    · refine .inl ⟨fun hlarge => ?_, .inl (run_of_stopped haccepted hwalked hs path)⟩
      have hheight := haccepted.height_le.trans hlarge.2.1
      rw [(stopped_walkProgram_iff ..).2 hheight] at hwalked
      cases hwalked
    have haccepted : ProgramAccepted cfg'.room cfg'.levels (printing source) [.print e'] :=
      ⟨haccepted.read, Bool.eq_false_iff.2 hwalked, haccepted.reports⟩
    have hfollows := follows_of_accepted cfg' haccepted hs path
    have hself : s.memory.heap.Matches .sameLine s.memory.heap :=
      Heap.matches_self fun _ _ => ⟨rfl, rfl, rfl⟩
    have hmatches := Memory.interpret_matches hself (.stmts (.print hm) .noStmts) cfg'.setting
      cfg'.steps
    change Conduct.Follows s (s.memory.interpret cfg'.setting cfg'.steps
      [.print (resolveExpression e').1]) _ at hfollows
    rcases Memory.perform_alike (s := cfg.setting.deeper 2) hclock hended hno cfg'.steps with
      hsame | ⟨hlimits, hstopped⟩
    · rw [Memory.interpret, Memory.interpret, hsame] at hmatches
      exact .inr ⟨_, hfollows, hmatches⟩
    · exact .inl ⟨fun hlarge => hlimits hlarge.2.2,
        cutShort_of_follows hfollows (hmatches.ending.stopped hstopped)⟩
  · exact .inl ⟨fun hlarge => absurd hlarge.1 (by omega), .inl (run_of_tooDeep hnone path)⟩

/-- What becomes of an accepted expression: a session answers with the text of its value. -/
theorem evaluate_follows {s : Session} (h : ExpressionAccepted cfg.room cfg.levels source e)
    (hs : s.log.hadError = false) (path : String) :
    let r := s.memory.evaluate cfg.setting cfg.steps (resolveExpression e).1
    let c := s.evaluate cfg path source
    c.printed = r.printed ∧ c.session.memory = r.memory ∧
      c.session.log.reports = s.log.reports ++ r.ending.report?.toArray ∧
      ∀ text, c.answer = .ok (some text) →
        ∃ v, r.ending = .value v ∧ r.memory.heap.text v = text := by
  intro r c
  let t : Session := ⟨s.log.register path source, s.memory⟩
  obtain ⟨hprinted, hmemory, hreports, -⟩ := conclude_follows t r
  have hc : c = { t.conclude r with answer := (t.conclude r).answer.map fun _ => r.text? } :=
    evaluate_of_accepted h hs path
  rw [hc]
  refine ⟨hprinted, hmemory, hreports, fun text htext => ?_⟩
  have htext : r.text? = some text := by
    dsimp only at htext
    cases ha : (t.conclude r).answer with
    | error => rw [ha] at htext; cases htext
    | ok => rw [ha] at htext; exact Except.ok.inj htext
  unfold Run.text? at htext
  split at htext
  · next v hv => exact ⟨v, hv, Option.some.inj htext⟩
  · cases htext

end Session

/-- Whatever a session went through before, as long as no flag is set: to print an accepted
expression by a statement is to evaluate it and to print the text that is answered. What is printed
on the way, the globals and their texts are the same. If the evaluation ends with a run-time error
other than an overflow, so does the statement, with the same report but for the column. All this
holds under whatever limits the statement does not exceed, and it exceeds none that are a little
larger than those of the evaluation. -/
theorem echo_agrees_with_print {s : Session} {cfg cfg' : Config} (hs : s.log.hadError = false)
    (hflag : s.log.hadRuntimeError = false) (h : ExpressionAccepted cfg.room cfg.levels source e)
    (hclock : cfg'.setting.clock = cfg.setting.clock) (path path' : String) :
    let echo := s.evaluate cfg path source
    let shown := s.run cfg' path' (printing source)
    let limited := ¬cfg'.Surpasses cfg ∧ shown.CutShort s
    (∀ text, echo.answer = .ok (some text) → limited ∨
      shown.answer = .ok true ∧ shown.output = echo.output ++ text ++ "\n" ∧
        shown.session.globals = echo.session.globals ∧
        shown.session.log.reports = s.log.reports) ∧
    ∀ r, echo.session.log.reports = s.log.reports.push r →
      r.message ≠ Escape.overflowMessage → limited ∨
      shown.answer = .ok false ∧ shown.output = echo.output ∧
        shown.session.globals = echo.session.globals ∧
        ∃ column, shown.session.log.reports = s.log.reports.push { r with column } := by
  intro echo shown limited
  obtain ⟨hprinted, hmemory, hreports, hvalue⟩ := Session.evaluate_follows h hs path
  have hglobals {r r' : Run} (hf : Conduct.Follows s r' shown) (hm : r.Matches .sameLine #[] r')
      (hr : r.memory = echo.session.memory) : shown.session.globals = echo.session.globals := by
    refine Session.globals_of_matches (P := .sameLine) ?_
    rw [hf.memory, ← hr]
    exact hm.heap
  have houtput {r r' : Run} (hf : Conduct.Follows s r' shown) (hm : r.Matches .sameLine #[] r') :
      shown.output = lineOut r.printed := by
    rw [Conduct.output, hf.printed, hm.printed, Array.empty_append]
  constructor
  · intro text htext
    obtain ⟨v, hv, rfl⟩ := hvalue text htext
    have hprint := Memory.interpret_print_of_value hv
    refine (Session.run_printing hs h hclock path' hprint (by simp) (by simp)).imp_right ?_
    rintro ⟨r', hf, hm⟩
    refine ⟨?_, ?_, hglobals hf hm hmemory.symm, ?_⟩
    · rw [hf.answer, hm.ending.answer, hflag]
      rfl
    · rw [houtput hf hm, Array.push_eq_append, lineOut_append, ← hprinted, String.append_assoc]
      rfl
    · have hsilent : r'.ending.report? = none := hm.ending.report?_eq_none rfl
      rw [hf.reports_eq, hsilent]
  · intro q hq hno
    have hreport := append_toArray_eq_push.1 (hreports.symm.trans hq)
    obtain ⟨token, error, hending, rfl⟩ := Ending.error_of_report? hreport hno
    have hprint := Memory.interpret_print_of_error hending
    refine (Session.run_printing hs h hclock path' hprint (by simp [hending])
      (by simp [hending])).imp_right ?_
    rintro ⟨r', hf, hm⟩
    have herror := hm.ending
    rw [hending] at herror
    obtain ⟨token', hending', -, hlexeme, hline⟩ := herror.error
    refine ⟨?_, ?_, hglobals hf hm hmemory.symm, token'.column, ?_⟩
    · rw [hf.answer, hending']
      rfl
    · rw [houtput hf hm, Conduct.output, hprinted]
    · rw [hf.reports_eq_push, hending']
      simp [Ending.report?, Report.atRuntime, hlexeme, hline]

/-- An assignment with a comment behind it, and an operand of the wrong kind on a second line. -/
theorem echo_agrees_with_print_of_commented_inputs :
    let cfg : Config := ⟨20, 20, ⟨10, fun _ => 0⟩, 50⟩
    let cfg' : Config := ⟨22, 22, ⟨12, fun _ => 0⟩, 55⟩
    let s := ((Session.start false).run cfg "a.lox" "var a = \"x\";").session
    let assignment := "a = a + \"y\" // longer"
    let negation := "a + // no\n-a"
    s.log.hadError = false ∧ s.log.hadRuntimeError = false ∧
      (∃ e, ExpressionAccepted cfg.room cfg.levels assignment e) ∧
      (∃ e, ExpressionAccepted cfg.room cfg.levels negation e) ∧
      (s.evaluate cfg "b.lox" assignment).answer = .ok (some "xy") ∧
      (s.run cfg' "b.lox" (printing assignment)).answer = .ok true ∧
      (s.run cfg' "b.lox" (printing assignment)).output = "xy\n" ∧
      (s.evaluate cfg "b.lox" negation).session.log.reports =
        #[⟨.runtime, "Operand must be a number.", some 2, "", 1, "-"⟩] ∧
      ∃ column, (s.run cfg' "b.lox" (printing negation)).session.log.reports =
        #[⟨.runtime, "Operand must be a number.", some 2, "", column, "-"⟩] := by
  intro cfg cfg' s assignment negation
  have hs : s.log.hadError = false := by decide +kernel
  have hflag : s.log.hadRuntimeError = false := by decide +kernel
  have hlimits : cfg'.Surpasses cfg := by unfold Config.Surpasses; decide
  obtain ⟨e, he⟩ : ∃ e, ExpressionAccepted cfg.room cfg.levels assignment e :=
    ⟨_, Option.join_eq_some_iff.1 (Option.some_get (by decide +kernel)).symm,
      by decide +kernel, by decide +kernel⟩
  obtain ⟨e', he'⟩ : ∃ e, ExpressionAccepted cfg.room cfg.levels negation e :=
    ⟨_, Option.join_eq_some_iff.1 (Option.some_get (by decide +kernel)).symm,
      by decide +kernel, by decide +kernel⟩
  have hanswer : (s.evaluate cfg "b.lox" assignment).answer = .ok (some "xy") := by decide +kernel
  have hsilent : (s.evaluate cfg "b.lox" assignment).output = "" := by decide +kernel
  have hreports : (s.evaluate cfg "b.lox" negation).session.log.reports =
      #[⟨.runtime, "Operand must be a number.", some 2, "", 1, "-"⟩] := by decide +kernel
  have hnone : s.log.reports = #[] := by decide +kernel
  have hclock : cfg'.setting.clock = cfg.setting.clock := rfl
  obtain ⟨hvalue, -⟩ := echo_agrees_with_print hs hflag he hclock "b.lox" "b.lox"
  obtain ⟨-, herror⟩ := echo_agrees_with_print hs hflag he' hclock "b.lox" "b.lox"
  rcases hvalue "xy" hanswer with hlimited | ⟨hshown, houtput, -, -⟩
  · exact absurd hlimits hlimited.1
  rcases herror _ (by rw [hreports, hnone]; rfl) (by decide) with
    hlimited | ⟨-, -, -, column, hcolumn⟩
  · exact absurd hlimits hlimited.1
  rw [hsilent] at houtput
  rw [hnone] at hcolumn
  exact ⟨hs, hflag, ⟨e, he⟩, ⟨e', he'⟩, hanswer, hshown, houtput, hreports, column, hcolumn⟩

end LoxLang
