import LoxLang.Proofs.LogFlags
import LoxLang.Proofs.QuotedTokens
import LoxLang.Proofs.RejectedInputs
import LoxLang.Proofs.TokenOrigins

/-!
# Which source a report quotes

A log has one source to quote, the one registered last, and a token does not know the source that it
was scanned from. A function may be called long after its source was replaced, so that what decides
is whether the source reads as the token at its line and column (`Token.ReadsIn`). The tokens of the
source itself are quoted always, those of an earlier one exactly where the two happen to read alike
(`earlier_token_quoted_iff_read`).
-/

namespace LoxLang

/-! ## Logs that go on -/

/-- A log goes on with reports: it holds them behind its own, and each is shown as the log would
have shown it. -/
structure Log.GoesOn (log : Log) (rs : List Report) (log' : Log) : Prop where
  colored : log'.colored = log.colored
  source : log'.source = log.source
  reports : log'.reports.toList = log.reports.toList ++ rs
  shown : log'.shown = log.shown ++ String.join (rs.map log.display)

namespace Log.GoesOn

variable {log log' log'' : Log}

theorem nil (log : Log) : log.GoesOn [] log :=
  ⟨rfl, rfl, (List.append_nil _).symm, String.append_empty.symm⟩

theorem trans (h : log.GoesOn rs log') (h' : log'.GoesOn qs log'') :
    log.GoesOn (rs ++ qs) log'' where
  colored := h'.colored.trans h.colored
  source := h'.source.trans h.source
  reports := by rw [h'.reports, h.reports, List.append_assoc]
  shown := by
    have hdisplay : log'.display = log.display := by
      funext r
      rw [display, display, diagnose?, diagnose?, h.colored, h.source]
    rw [h'.shown, h.shown, hdisplay, List.map_append, String.join_append, String.append_assoc]

/-- A report is emitted, whatever the flags are set to. -/
theorem emit (log : Log) (r : Report) (hadError hadRuntimeError : Bool) :
    log.GoesOn [r] ({ log with hadError, hadRuntimeError }.emit r) where
  colored := rfl
  source := rfl
  reports := Array.toList_push
  shown := by
    rw [shown_emit, List.map_singleton, String.join_cons, String.join_nil, String.append_empty]
    rfl

theorem complainAll (rs : List Report) (log : Log) : log.GoesOn rs (log.complainAll rs) := by
  induction rs generalizing log with
  | nil => exact .nil log
  | cons r rs ih => exact (emit log r true log.hadRuntimeError).trans (ih _)

theorem absorb (log : Log) (e : Escape) : log.GoesOn e.report?.toList (log.absorb e) := by
  cases e with
  | exit => exact .nil log
  | tooDeep => exact emit log _ true log.hadRuntimeError
  | unreadable => exact emit log _ log.hadError log.hadRuntimeError
  | interrupted | misread | runtime | stackOverflow | internal | unknown =>
    exact emit log _ log.hadError true

end Log.GoesOn

/-! ## Reports of a session -/

variable {S : Token → Prop}

/-- A log goes on with reports that are at tokens of some kind, or at none. -/
def Log.Tells (S : Token → Prop) (log log' : Log) : Prop :=
  ∃ rs, log.GoesOn rs log' ∧ ∀ r ∈ rs, r.From S

namespace Log.Tells

variable {log log' log'' : Log}

theorem trans (h : log.Tells S log') (h' : log'.Tells S log'') : log.Tells S log'' := by
  obtain ⟨rs, hrs, hfrom⟩ := h
  obtain ⟨qs, hqs, hfrom'⟩ := h'
  exact ⟨rs ++ qs, hrs.trans hqs, List.forall_mem_append.2 ⟨hfrom, hfrom'⟩⟩

theorem complainAll (h : ∀ r ∈ rs, r.From S) (log : Log) : log.Tells S (log.complainAll rs) :=
  ⟨rs, .complainAll rs log, h⟩

theorem runtimeError (h : ∀ t ∈ token, S t) (message : String) (log : Log) :
    log.Tells S (log.runtimeError token message) := by
  refine ⟨_, .emit log _ log.hadError true, List.forall_mem_singleton.2 ?_⟩
  cases token with
  | none => exact .placeless rfl
  | some t => exact Report.from_atRuntime (h t rfl) _

theorem absorb {e : Escape} (h : ∀ r ∈ e.report?, r.From S) (log : Log) :
    log.Tells S (log.absorb e) :=
  ⟨_, .absorb log e, fun r hr => h r (Option.mem_toList.1 hr)⟩

end Log.Tells

/-- What a conduct has reported, and what will be reported of its escape. -/
structure Conduct.Tells (S : Token → Prop) (log : Log) (c : Conduct α) : Prop where
  told : log.Tells S c.session.log
  escape : ∀ e, c.answer = .error e → ∀ r ∈ e.report?, r.From S

theorem Conduct.Tells.of_ok {c : Conduct α} (h : log.Tells S c.session.log)
    (ha : c.answer = .ok a) : c.Tells S log where
  told := h
  escape _ he := nomatch ha.symm.trans he

theorem Conduct.Tells.settle {c : Conduct α} (h : c.Tells S log) (guarded : Bool) :
    log.Tells S (c.settle guarded).log := by
  unfold Conduct.settle Conduct.guarded
  split
  · cases ha : c.answer with
    | ok => exact h.told
    | error e => exact h.told.trans (.absorb (h.escape e ha) _)
  · exact h.told

theorem Conduct.Tells.map {c : Conduct α} (h : c.Tells S log) (f : α → β) :
    Conduct.Tells S log { c with answer := c.answer.map f } where
  told := h.told
  escape := by
    intro e he
    cases ha : c.answer with
    | ok => simp [ha, Except.map] at he
    | error e' =>
      simp only [ha, Except.map, Except.error.injEq] at he
      exact h.escape e (he ▸ ha)

theorem Fault.from_of_escape (f : Fault) : ∀ r ∈ f.escape.report?, r.From S := by
  cases f <;> rintro _ ⟨⟩ <;> exact .placeless rfl

theorem Grammar.from_of_scan (source : List Char) : ∀ r ∈ (scan source).reports, r.From S := by
  intro r hr
  cases reportedOf_scan hr <;> exact .placeless rfl

/-- The token that ends a source has no text. -/
theorem Grammar.lexeme_eq_empty_of_eof {t : Token} (ht : t ∈ (scan source).tokens)
    (hk : t.kind = .eof) : t.lexeme = "" := by
  rw [tokens_scan] at ht
  rcases List.mem_append.1 ht with ht | ht
  · exact absurd hk (kind_ne_eof_of_mem_words ht)
  · exact congrArg Token.lexeme (List.mem_singleton.1 ht)

namespace Session

variable {s : Session} {log : Log}

theorem tells_report (h : ∀ r ∈ rs, r.From S) (s : Session) : s.log.Tells S (s.report rs).log :=
  .complainAll h s.log

theorem tells_stop_ok (h : log.Tells S s.log) (a : α) : (s.stop (.ok a)).Tells S log :=
  .of_ok h rfl

theorem tells_tooDeep (h : log.Tells S s.log) :
    (s.stop (α := α) (.error .tooDeep)).Tells S log := by
  refine ⟨h, ?_⟩
  rintro _ ⟨⟩ _ ⟨⟩
  exact .placeless rfl

/-- A run is reported at the token that it failed at. -/
theorem tells_conclude (h : log.Tells S s.log) {r : Run}
    (hr : ∀ f, r.ending = .failed f → f.At S) : (s.conclude r).Tells S log := by
  unfold conclude
  split
  · exact .of_ok h rfl
  · next t e hf =>
    refine .of_ok (h.trans (.runtimeError (fun u hu => ?_) _ _)) rfl
    cases hu
    exact hr _ hf
  · next call hf => exact .of_ok (h.trans (.runtimeError (hr _ hf) _ _)) rfl
  · next f hf =>
    refine ⟨h, ?_⟩
    rintro _ ⟨⟩
    exact f.from_of_escape
  · refine ⟨h, ?_⟩
    rintro _ ⟨⟩ _ ⟨⟩
    exact .placeless rfl

theorem tells_run (hs : s.memory.TokensIn S) (hS : ∀ t ∈ (scan source.toList).tokens, S t)
    (cfg : Config) (path : String) :
    (s.run cfg path source).Tells S (s.log.register path source) := by
  obtain ⟨hread, hprogram⟩ := Grammar.readProgram_within hS cfg.room
  have hfront := tells_report (List.forall_mem_append.2 ⟨Grammar.from_of_scan source.toList, hread⟩)
    (s.registered path source)
  simp only [run, scanSource_eq, report_report]
  split
  · exact tells_tooDeep hfront
  · next program hvalue =>
    obtain ⟨hresolved, hfindings⟩ := resolveProgram_within (hprogram program hvalue)
    have hall := hfront.trans (tells_report (fun r hr =>
      hfindings r ((reports_walkProgram cfg.levels program).subset hr)) _)
    rw [report_report] at hall
    split
    · exact tells_stop_ok hfront _
    · split
      · exact tells_tooDeep hall
      · next hwalked =>
        rw [(walkProgram_eq (Bool.eq_false_iff.2 hwalked)).1]
        split
        · exact tells_stop_ok hall _
        · exact (tells_conclude hall (hs.perform (.run hresolved) rfl _ _).2).map _

theorem tells_evaluate (hs : s.memory.TokensIn S) (hS : ∀ t ∈ (scan source.toList).tokens, S t)
    (cfg : Config) (path : String) :
    (s.evaluate cfg path source).Tells S (s.log.register path source) := by
  obtain ⟨hread, hexpression⟩ := Grammar.readExpression_within hS cfg.room
  have hfront := tells_report (List.forall_mem_append.2 ⟨Grammar.from_of_scan source.toList, hread⟩)
    (s.registered path source)
  simp only [evaluate, scanSource_eq, report_report]
  split
  · exact tells_tooDeep hfront
  · exact tells_stop_ok hfront _
  · next e hvalue =>
    obtain ⟨hresolved, hfindings⟩ := resolveExpression_within (hexpression e hvalue)
    have hall := hfront.trans (tells_report (fun r hr =>
      hfindings r ((reports_walkExpression cfg.levels e).subset hr)) _)
    rw [report_report] at hall
    split
    · exact tells_stop_ok hfront _
    · split
      · exact tells_tooDeep hall
      · next hwalked =>
        rw [(walkExpression_eq (Bool.eq_false_iff.2 hwalked)).1]
        split
        · exact tells_stop_ok hall _
        · exact (tells_conclude hall (hs.perform (.eval hresolved) rfl _ _).2).map _

end Session

/-! ## Sources of a session -/

/-- The tokens that an act scans. -/
def Act.scanned : Act → List Token
  | .run _ _ _ source | .evaluate _ _ _ source | .tokens _ source => (scan source.toList).tokens
  | .reset => []

/-- The token is one of those that some acts scanned. -/
def ScannedIn (acts : List Act) (t : Token) : Prop := ∃ a ∈ acts, t ∈ a.scanned

theorem Act.exists_scanned (a : Act) (h : t ∈ a.scanned) : ∃ source, t ∈ (scan source).tokens := by
  cases a with
  | reset => cases h
  | run | evaluate | tokens => exact ⟨_, h⟩

theorem Act.Roots.task_within (h : Act.Roots a n) (hS : ∀ t ∈ a.scanned, S t) :
    n.task.Matches (.within S) n.task ∧ n.task.blamed? = none := by
  cases h with
  | run h =>
    exact ⟨.run (resolveProgram_within ((Grammar.readProgram_within hS _).2 _ h.read)).1, rfl⟩
  | evaluate h =>
    have hread := (Grammar.readExpression_within hS _).2 _ h.read
    exact ⟨.eval (resolveExpression_within hread).1, rfl⟩

namespace Session

theorem tokensIn_act {s : Session} (hs : s.memory.TokensIn S) (hS : ∀ t ∈ a.scanned, S t) :
    (s.act a).memory.TokensIn S := by
  rw [memory_act]
  cases ht : s.task? a with
  | none => exact hs
  | some task =>
    obtain ⟨cfg, task⟩ := task
    obtain ⟨n, hroots, rfl⟩ := roots_of_task? ht
    obtain ⟨hmatches, hblamed⟩ := hroots.task_within hS
    exact (hs.perform hmatches hblamed _ _).1

theorem tokensIn_after {s : Session} (hs : s.memory.TokensIn S)
    (hS : ∀ a ∈ acts, ∀ t ∈ a.scanned, S t) : (s.after acts).memory.TokensIn S := by
  induction acts generalizing s with
  | nil => exact hs
  | cons a acts ih =>
    obtain ⟨ha, hacts⟩ := List.forall_mem_cons.1 hS
    exact ih (tokensIn_act hs ha) hacts

end Session

/-! ## Quotations -/

/-- At the line and column of the token, the source reads as the first line of its lexeme. -/
def Token.ReadsIn (t : Token) (source : List Char) : Prop :=
  ∃ line, (Text.lines source)[t.line - 1]? = some line ∧
    Text.firstLine t.lexeme.toList <+: line.drop (t.column - 1)

theorem Token.StandsIn.readsIn {t : Token} {line : List Char} (h : t.StandsIn source line) :
    t.ReadsIn source := ⟨line, h.line_eq, h.reads⟩

namespace Report

theorem At.fields {r : Report} (h : r.At t) :
    r.line = some t.line ∧ r.column = t.column ∧ r.lexeme = t.lexeme := by
  obtain ⟨message, rfl | rfl⟩ := h <;> exact ⟨rfl, rfl, rfl⟩

variable {colored : Bool}

theorem quoted?_eq_none {r : Report} (h : r.lexeme = "") (line : List Char) :
    r.quoted? line = none := by
  simp [quoted?, h]

theorem diagnose?_eq_none {r : Report} (h : r.lexeme = "") (source : List (List Char)) :
    r.diagnose? colored source = none := by
  cases hn : r.line with
  | none => simp [diagnose?, hn]
  | some n => simp [diagnose?, hn, quoted?_eq_none h]

theorem isSome_quoted?_iff {r : Report} (hcolumn : 1 ≤ r.column)
    (hfirst : Text.firstLine r.lexeme.toList ≠ []) (line : List Char) :
    (r.quoted? line).isSome ↔ Text.firstLine r.lexeme.toList <+: line.drop (r.column - 1) := by
  have hempty : r.lexeme ≠ "" := fun h => hfirst (h ▸ rfl)
  have hzero : r.column ≠ 0 := by omega
  simp only [quoted?]
  split
  · next h =>
    -- the lexeme would begin behind the end of the line
    have hlt : line.length < r.column - 1 := by simpa [hempty, hzero] using h
    rw [List.drop_eq_nil_of_le hlt.le, List.prefix_nil]
    exact iff_of_false Bool.false_ne_true hfirst
  · simp

/-- A report at a token that was scanned from whatever source is quoted from the source that reads
as the token. -/
theorem At.isSome_diagnose?_iff {r : Report} {t : Token} (hr : r.At t)
    (ht : t ∈ (scan earlier).tokens) (hk : t.kind ≠ .eof) (source : List Char) :
    (r.diagnose? colored (Text.lines source)).isSome ↔ t.ReadsIn source := by
  obtain ⟨line, hstands⟩ := exists_standsIn ht hk
  obtain ⟨hline, hcolumn, hlexeme⟩ := hr.fields
  have hzero : t.line ≠ 0 := Nat.ne_of_gt hstands.line_pos
  have hquoted := isSome_quoted?_iff (hcolumn ▸ hstands.column_pos)
    (hlexeme ▸ hstands.firstLine_ne_nil)
  rw [hcolumn, hlexeme] at hquoted
  simp only [Token.ReadsIn, ← hquoted]
  cases hat : (Text.lines source)[t.line - 1]? with
  | none => simp [diagnose?, hline, hzero, hat]
  | some other =>
    cases hother : r.quoted? other <;> simp [diagnose?, hline, hzero, hat, hother]

/-- What a log makes of a report on a source, when tokens of some kind were scanned before. -/
inductive Judged (S : Token → Prop) (log : Log) (source : List Char) (r : Report) : Prop where
  /-- There is nothing to point at. -/
  | nowhere (blank : r.lexeme = "") (silent : log.diagnose? r = none) : Judged S log source r
  /-- It is at a token that was scanned from the source or before. It is shown without a line
  exactly if the source does not read as the token, which is never so of a token of its own. -/
  | located {t : Token} (located : r.At t) (scanned : S t ∨ t ∈ (scan source).tokens)
      (silent_iff : log.diagnose? r = none ↔ ¬ t.ReadsIn source)
      (own : t ∈ (scan source).tokens → t.ReadsIn source) : Judged S log source r

theorem judged_of_at {r : Report} {t : Token} (hr : r.At t)
    (ht : ScannedIn acts t ∨ t ∈ (scan source).tokens) {log : Log}
    (hlog : log.source = Text.lines source) : r.Judged (ScannedIn acts) log source := by
  obtain ⟨text, hscanned⟩ : ∃ text, t ∈ (scan text).tokens := by
    rcases ht with ⟨a, -, ha⟩ | ht
    · exact a.exists_scanned ha
    · exact ⟨source, ht⟩
  by_cases hk : t.kind = .eof
  · have hblank : r.lexeme = "" := by
      rw [hr.fields.2.2, Grammar.lexeme_eq_empty_of_eof hscanned hk]
    exact .nowhere hblank (diagnose?_eq_none hblank _)
  · refine .located hr ht ?_ fun hown => ?_
    · rw [Log.diagnose?, hlog, ← hr.isSome_diagnose?_iff hscanned hk, Option.not_isSome_iff_eq_none]
    · obtain ⟨line, hstands⟩ := exists_standsIn hown hk
      exact hstands.readsIn

theorem From.judged {r : Report}
    (h : r.From fun t => ScannedIn acts t ∨ t ∈ (scan source).tokens) {log : Log}
    (hlog : log.source = Text.lines source) : r.Judged (ScannedIn acts) log source := by
  cases h with
  | placeless hlexeme => exact .nowhere hlexeme (diagnose?_eq_none hlexeme _)
  | located ht hr => exact judged_of_at hr ht hlog

end Report

theorem Log.source_register (log : Log) (path source : String) :
    (log.register path source).source = Text.lines source.toList := by
  simp [Log.source, Log.register]

namespace Input

def path : Input → String
  | run _ path _ | evaluate _ path _ => path

def source : Input → String
  | run _ _ source | evaluate _ _ source => source

end Input

namespace Session

theorem tells_act {s : Session} {i : Input} (hs : s.memory.TokensIn S)
    (hS : ∀ t ∈ (scan i.source.toList).tokens, S t) (guarded : Bool) :
    (s.log.register i.path i.source).Tells S (s.act (i.act guarded)).log := by
  cases i with
  | run cfg path => exact (tells_run hs hS cfg path).settle guarded
  | evaluate cfg path => exact (tells_evaluate hs hS cfg path).settle guarded

/-- Whatever was done in a session before, what it reports of the next input is added behind what is
held and shown. Each report with a lexeme is at a token of the input or of an earlier source. It is
shown with a line of the input exactly if the input, at the line and column of the token, reads as
the first line of its lexeme. So it is for a token of the input, and for one of an earlier source
only if the two happen to agree there. -/
theorem earlier_token_quoted_iff_read (colored guarded : Bool) (acts : List Act) (i : Input) :
    let s := (start colored).after acts
    let log := s.log.register i.path i.source
    ∃ rs, log.GoesOn rs (s.act (i.act guarded)).log ∧
      ∀ r ∈ rs, r.Judged (ScannedIn acts) log i.source.toList := by
  intro s log
  have hs : s.memory.TokensIn fun t => ScannedIn acts t ∨ t ∈ (scan i.source.toList).tokens :=
    tokensIn_after .initial fun a ha t ht => .inl ⟨a, ha, ht⟩
  obtain ⟨rs, hgoes, hfrom⟩ := tells_act hs (fun t => .inr) guarded
  exact ⟨rs, hgoes, fun r hr => (hfrom r hr).judged (Log.source_register ..)⟩

/-- A comment has a minus where the function of an earlier source has the one that fails. -/
theorem earlier_token_quoted_from_comment :
    let first := "fun f() { return -nil; }"
    let second := "f(); // no token -"
    let cfg : Config := ⟨40, 40, ⟨100, fun _ => 0⟩, 1000⟩
    let s := (start false).after [.run true cfg "<in>" first]
    let s' := s.act (.run true cfg "<in>" second)
    ∃ t ∈ (scan first.toList).tokens, t ∉ (scan second.toList).tokens ∧
      s'.log.reports = #[.atRuntime (some t) "Operand must be a number."] ∧
      s'.log.diagnose? (.atRuntime (some t) "Operand must be a number.") =
        some "  f(); // no token -\n                   ^" ∧
      s'.log.shown = "Operand must be a number.\n[line 1]\n" ++
        "  f(); // no token -\n                   ^\n" :=
  ⟨⟨.minus, "-", none, 1, 18⟩, by decide +kernel⟩

end Session

end LoxLang
