import LoxLang.Proofs.DepthLimits
import LoxLang.Proofs.FloatWords
import LoxLang.Proofs.Lexemes
import LoxLang.Proofs.ListedNumbers

/-!
# Printed numbers

The text of a finite number is its sign and a numeral (`Number.writes_text`). The scanner makes just
these lexemes of it and reads the numeral to the magnitude, and as an expression the text has the
number as its value (`Writes.denoted`). So no two finite numbers have the same text
(`printed_number_reads_back`).
-/

namespace LoxLang

/-! ## Scanning -/

/-- The token of a numeral in the first line. -/
def Token.ofNumeral (numeral : List Char) (column : Nat) : Token :=
  ⟨.number, .ofList numeral, some (.number (Number.ofNumeral numeral)), 1, column⟩

/-- The token of a sign at the beginning. -/
def Token.sign : Token := ⟨.minus, "-", none, 1, 1⟩

namespace PlainNumeral

variable {numeral : List Char}

/-- The scanner takes the whole numeral. -/
theorem numeral_eq (h : PlainNumeral numeral) : Segment.numeral numeral = numeral := by
  have hprefix : numeral <+: Segment.numeral numeral := by
    cases h with
    | whole hd => exact Segment.numeral_whole hd List.prefix_rfl
    | fraction hd he => exact Segment.numeral_fraction hd he List.prefix_rfl
  exact (Segment.numeral_isPrefix numeral).eq_of_length_le hprefix.length_le

theorem segments_eq (h : PlainNumeral numeral) : segments numeral =
    [.lexeme .number numeral (some (.number (Number.ofNumeral numeral)))] := by
  have hnumeral := h.numeral_eq
  obtain ⟨c, rest, rfl, hc⟩ := h.isDigit_head
  rw [segments_cons, Segment.next_wordChar (by simp [Segment.isWordChar, hc]), if_pos hc, hnumeral]
  simp [Segment.text]

theorem scan_eq (h : PlainNumeral numeral) :
    words numeral = [.ofNumeral numeral 1] ∧ (scan numeral).reports = [] := by
  rw [words, scan, h.segments_eq]
  exact ⟨rfl, rfl⟩

theorem scan_minus (h : PlainNumeral numeral) :
    words ('-' :: numeral) = [.sign, .ofNumeral numeral 2] ∧
      (scan ('-' :: numeral)).reports = [] := by
  have hminus : Segment.next '-' numeral = .mark .minus ['-'] := Segment.next_single rfl
  have hsegments : segments ('-' :: numeral) = .mark .minus ['-'] :: segments numeral := by
    rw [segments_cons, hminus]
    rfl
  rw [words, scan, hsegments, h.segments_eq]
  exact ⟨rfl, rfl⟩

end PlainNumeral

/-! ## Evaluating -/

namespace Grammar

theorem derives_number (hk : t.kind = .number) (hl : t.literal = some c) (n : Nat) :
    Derives (n + 1) (.unary (.literal c)) [t] := by
  have hdenotes : Denotes t (t.literal.getD .nil) := .literal (.inl hk)
  rw [hl] at hdenotes
  exact .called (.primary (.constant hdenotes))

end Grammar

theorem Machine.run_of_step {m m' : Machine} (hm : m.halted = false) (h : m.step s = m') (n : Nat) :
    m.run s (n + 1) = m'.run s n := by
  rw [run, hm, h]
  rfl

namespace Memory

variable {mem : Memory} {s : Setting}

/-- A run that leaves nothing but a value. -/
theorem perform_of_run (h : (mem.start task).run s steps = mem.start (.value v)) :
    mem.perform s steps task = ⟨.value v, #[], { mem with callToken := none }⟩ := by
  rw [perform, h]
  rfl

theorem evaluate_literal (c : Constant) (hsteps : 0 < steps) :
    mem.evaluate s steps (.literal c) = ⟨.value c.value, #[], { mem with callToken := none }⟩ := by
  obtain ⟨n, rfl⟩ := Nat.exists_eq_add_one.2 hsteps
  exact perform_of_run ((Machine.run_of_step rfl rfl n).trans (Machine.run_of_halted rfl s n))

theorem evaluate_negative (y : Float) (hop : op.kind = .minus) (hdepth : 0 < s.depth)
    (hsteps : 3 ≤ steps) : mem.evaluate s steps (.unary op (.literal (.number y))) =
      ⟨.value (.number (-y)), #[], { mem with callToken := none }⟩ := by
  obtain ⟨n, rfl⟩ := Nat.exists_eq_add_of_le' hsteps
  let waiting (task : Control) : Machine :=
    { mem.start task with stack := Stack.empty.push (.unary op) }
  have hawait : (mem.start (.eval (.unary op (.literal (.number y))))).step s =
      waiting (.eval (.literal (.number y))) := if_neg (Nat.not_le.2 hdepth)
  have hliteral : (waiting (.eval (.literal (.number y)))).step s = waiting (.value (.number y)) :=
    rfl
  have hunary : (waiting (.value (.number y))).step s = mem.start (.value (.number (-y))) := by
    simp [waiting, Machine.step, Machine.receive, Machine.unary, hop, Machine.yield, start]
  refine perform_of_run ?_
  calc (mem.start (.eval (.unary op (.literal (.number y))))).run s (n + 3)
    _ = (waiting (.eval (.literal (.number y)))).run s (n + 2) := Machine.run_of_step rfl hawait _
    _ = (waiting (.value (.number y))).run s (n + 1) := Machine.run_of_step rfl hliteral _
    _ = (mem.start (.value (.number (-y)))).run s n := Machine.run_of_step rfl hunary _
    _ = mem.start (.value (.number (-y))) := Machine.run_of_halted rfl s n

end Memory

/-! ## Printed numbers -/

/-- How a number is written: its sign and a numeral for its magnitude, and nothing else. -/
structure Writes (text : String) (x : Float) (numeral : List Char) : Prop where
  plain : PlainNumeral numeral
  toList_eq : text.toList = if Binary64.isNegative x then '-' :: numeral else numeral
  reports : (scan text.toList).reports = []
  contents : (scan text.toList).tokens.map Token.content =
    (if Binary64.isNegative x then [(.minus, "-", none)] else []) ++
      [(.number, .ofList numeral, some (.number (Number.ofNumeral numeral))), (.eof, "", none)]
  bits : (Number.ofNumeral numeral).toBits = x.abs.toBits

theorem Number.toList_text {x : Float} (h : x.isFinite = true) : (text x).toList =
    if Binary64.isNegative x then '-' :: Decimal.magnitude printed (Binary64.index x)
    else Decimal.magnitude printed (Binary64.index x) := by
  have hlt := Binary64.index_lt h
  rw [text_eq_write, Decimal.write, if_neg (Nat.not_lt.2 hlt.le), if_neg hlt.ne,
    String.toList_ofList]

theorem Number.writes_text {x : Float} (h : x.isFinite = true) :
    ∃ numeral, Writes (text x) x numeral := by
  obtain ⟨hplain, hreads⟩ := Decimal.magnitude_reads (Binary64.index_lt h)
  have htext := toList_text h
  rw [Binary64.ofIndex_index h] at hreads
  generalize Decimal.magnitude printed (Binary64.index x) = numeral at hplain hreads htext
  refine ⟨numeral, hplain, htext, ?_, ?_, by rw [hreads]⟩
  · rw [htext]
    split
    · exact hplain.scan_minus.2
    · exact hplain.scan_eq.2
  · rw [htext, tokens_scan]
    split
    · rw [hplain.scan_minus.1]
      rfl
    · rw [hplain.scan_eq.1]
      rfl

/-- An expression is accepted and has just this number as its value. -/
structure Denoted (text : String) (x : Float) (e : Expr) : Prop where
  accepted (room levels : Nat) (hroom : 3 ≤ room) (hlevels : 2 ≤ levels) :
    ExpressionAccepted room levels text e
  value (mem : Memory) (s : Setting) (steps : Nat) (hdepth : 0 < s.depth) (hsteps : 3 ≤ steps) :
    mem.evaluate s steps (resolveExpression e).1 =
      ⟨.value (.number x), #[], { mem with callToken := none }⟩

theorem Writes.denoted (h : Writes text x numeral) (hx : x.isFinite = true) :
    ∃ e, Denoted text x e := by
  have hmagnitude : Number.ofNumeral numeral = x.abs := Float.toBits_inj.1 h.bits
  have hsigned := Binary64.signed_abs hx
  have htext := h.toList_eq
  rw [← hmagnitude] at hsigned
  split at hsigned
  · next hnegative =>
    rw [if_pos hnegative] at htext
    have hderives : Grammar.Derives 3
        (.expression (.unary .sign (.literal (.number (Number.ofNumeral numeral)))))
        (words text.toList) := by
      rw [htext, h.plain.scan_minus.1]
      exact .expression_of_unary (.unary (by simp [Token.sign]) (Grammar.derives_number rfl rfl 0))
    refine ⟨_, fun room levels hroom hlevels =>
      .of_derives h.reports hderives hroom hlevels rfl, ?_⟩
    intro mem s steps hdepth hsteps
    obtain rfl := hsigned
    exact Memory.evaluate_negative _ rfl hdepth hsteps
  · next hnegative =>
    rw [if_neg hnegative] at htext
    have hderives : Grammar.Derives 2
        (.expression (.literal (.number (Number.ofNumeral numeral)))) (words text.toList) := by
      rw [htext, h.plain.scan_eq.1]
      exact .expression_of_unary (Grammar.derives_number rfl rfl 0)
    refine ⟨_, fun room levels hroom hlevels => .of_derives h.reports hderives
      (Nat.le_of_succ_le hroom) (Nat.le_of_succ_le hlevels) rfl, ?_⟩
    intro mem s steps _ hsteps
    obtain rfl := hsigned
    exact Memory.evaluate_literal _ (Nat.lt_of_lt_of_le (by decide) hsteps)

/-- A text is accepted as one expression only, and an expression has one value. -/
theorem Denoted.unique (h : Denoted text x e) (h' : Denoted text y e') : y = x := by
  obtain rfl := (h.accepted 3 2 le_rfl le_rfl).unique (h'.accepted 3 2 le_rfl le_rfl)
  have hx := h.value .initial ⟨1, fun _ => 0⟩ 3 (by decide) le_rfl
  have hy := h'.value .initial ⟨1, fun _ => 0⟩ 3 (by decide) le_rfl
  have hvalues := congrArg Run.ending (hy.symm.trans hx)
  simpa using hvalues

/-- In a session whatever its memory is. -/
theorem Denoted.answer (h : Denoted text x e) {s : Session} (hs : s.log.hadError = false)
    (hroom : 3 ≤ cfg.room) (hlevels : 2 ≤ cfg.levels) (hdepth : 0 < cfg.setting.depth)
    (hsteps : 3 ≤ cfg.steps) (path : String) :
    (s.evaluate cfg path text).answer = .ok (some (Number.text x)) := by
  rw [Session.evaluate_of_accepted (h.accepted _ _ hroom hlevels) hs]
  simp only [h.value _ _ _ hdepth hsteps]
  rfl

/-- Printed numbers read back. The text of a finite number is its sign and a numeral for its
magnitude; the text as an expression has just this number as its value, in every session; and so no
other finite number has the same text. -/
theorem printed_number_reads_back (x : Float) (h : x.isFinite = true) :
    (∃ numeral, Writes (Number.text x) x numeral) ∧
    (∃ e, Denoted (Number.text x) x e) ∧
    (∀ (cfg : Config) (s : Session) (path : String), s.log.hadError = false → 3 ≤ cfg.room →
      2 ≤ cfg.levels → 0 < cfg.setting.depth → 3 ≤ cfg.steps →
        (s.evaluate cfg path (Number.text x)).answer = .ok (some (Number.text x))) ∧
    ∀ y : Float, y.isFinite = true → Number.text y = Number.text x → y = x := by
  obtain ⟨numeral, hwrites⟩ := Number.writes_text h
  obtain ⟨e, hdenoted⟩ := hwrites.denoted h
  refine ⟨⟨numeral, hwrites⟩, ⟨e, hdenoted⟩, ?_, fun y hy htext => ?_⟩
  · intro cfg s path hs hroom hlevels hdepth hsteps
    exact hdenoted.answer hs hroom hlevels hdepth hsteps path
  · obtain ⟨_, hwrites'⟩ := Number.writes_text hy
    obtain ⟨_, hdenoted'⟩ := hwrites'.denoted hy
    exact hdenoted.unique (htext ▸ hdenoted')

/-- The greatest negative number: its text has more than three hundred digits. -/
theorem printed_number_reads_back_of_subnormal :
    let x := Binary64.ofIndex true 1
    x.isFinite = true ∧ Binary64.isNegative x = true ∧
      (∃ numeral, Writes (Number.text x) x numeral) ∧ (∃ e, Denoted (Number.text x) x e) ∧
      ∀ y : Float, y.isFinite = true → Number.text y = Number.text x → y = x := by
  intro x
  have hx : x.isFinite = true := by decide +kernel
  obtain ⟨hwrites, hdenoted, -, hunique⟩ := printed_number_reads_back x hx
  exact ⟨hx, by decide +kernel, hwrites, hdenoted, hunique⟩

/-- Neither zero has a fraction, and the sign of the negative one is kept. -/
example : Number.text (Binary64.ofIndex false 0) = "0" ∧
    Number.text (Binary64.ofIndex true 0) = "-0" := by
  decide +kernel

end LoxLang
