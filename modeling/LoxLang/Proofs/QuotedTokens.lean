import LoxLang.Proofs.MaximalMunch
import LoxLang.Session
import Mathlib.Data.List.Induction

/-!
# Tokens and reports at their places

The scanner steps its place over one character after the other, a log splits the source at its
newlines. The two agree: the place behind a text is told by the lines of that text (`after_start`),
and the lines of a source are those of its front with the first line of the rest joined to the last
one (`lines_append`). So what a report at a token quotes is the line that the token was scanned
from, underlined where its lexeme begins (`scanned_tokens_quoted`).
-/

namespace LoxLang

/-! ## Lines of a text in two pieces -/

namespace Text

/-- What stands behind the last newline of a text. -/
def lastLine (cs : List Char) : List Char := (lines cs).getLast (lines_ne_nil cs)

theorem lines_eq_cons (cs : List Char) : lines cs = firstLine cs :: (lines cs).tail := by
  obtain ⟨line, rest, hlines⟩ := List.exists_cons_of_ne_nil (lines_ne_nil cs)
  have hfirst := head?_lines cs
  rw [hlines, List.head?_cons, Option.some.injEq] at hfirst
  rw [hlines, hfirst, List.tail_cons]

/-- The last line of the first text goes on in the first line of the second one. -/
theorem lines_append (cs ds : List Char) :
    lines (cs ++ ds) =
      (lines cs).dropLast ++ (lastLine cs ++ firstLine ds) :: (lines ds).tail := by
  induction cs with
  | nil => exact lines_eq_cons ds
  | cons c cs ih =>
    simp only [List.cons_append, lastLine, lines_cons, ih]
    obtain ⟨line, rest, hlines⟩ := List.exists_cons_of_ne_nil (lines_ne_nil cs)
    by_cases hc : c = '\n'
    · simp [hc, hlines]
    · cases rest <;> simp [hc, hlines, consFirst]

theorem lastLine_concat (cs : List Char) (c : Char) :
    lastLine (cs ++ [c]) = if c = '\n' then [] else lastLine cs ++ [c] := by
  unfold lastLine
  simp only [lines_append]
  by_cases hc : c = '\n' <;> simp [hc, lastLine, lines, firstLine, consFirst]

/-- The line in which the first text ends. -/
theorem getElem?_lines_append (cs ds : List Char) :
    (lines (cs ++ ds))[(lines cs).length - 1]? = some (lastLine cs ++ firstLine ds) := by
  rw [lines_append, ← List.length_dropLast, List.getElem?_append_right (Nat.le_refl _),
    Nat.sub_self, List.getElem?_cons_zero]

/-- The lines in front of it. -/
theorem take_lines_append (cs ds : List Char) :
    (lines (cs ++ ds)).take ((lines cs).length - 1) = (lines cs).dropLast := by
  rw [lines_append, ← List.length_dropLast, List.take_left]

theorem length_lines_le (cs ds : List Char) :
    (lines cs).length ≤ (lines (cs ++ ds)).length := by
  rw [length_lines, length_lines, List.count_append]
  omega

theorem firstLine_cons (h : c ≠ '\n') (cs : List Char) :
    firstLine (c :: cs) = c :: firstLine cs := by
  simp [firstLine, h]

theorem firstLine_isPrefix_append (cs ds : List Char) :
    firstLine cs <+: firstLine (cs ++ ds) := by
  induction cs with
  | nil => exact List.nil_prefix
  | cons c cs ih =>
    by_cases hc : c = '\n'
    · simp [hc, firstLine]
    · rw [List.cons_append, firstLine_cons hc, firstLine_cons hc]
      exact (List.prefix_cons_inj c).2 ih

/-- How many characters stand in front of a column of a line, when each line ends in a newline. -/
def offset (ls : List (List Char)) (line column : Nat) : Nat :=
  ((ls.take (line - 1)).flatMap (· ++ ['\n'])).length + (column - 1)

theorem length_eq_offset (cs : List Char) :
    ((lines cs).dropLast.flatMap (· ++ ['\n'])).length + (lastLine cs).length = cs.length := by
  induction cs with
  | nil => rfl
  | cons c cs ih =>
    simp only [lastLine, lines_cons, List.length_cons, ← ih]
    obtain ⟨line, rest, hlines⟩ := List.exists_cons_of_ne_nil (lines_ne_nil cs)
    by_cases hc : c = '\n'
    · simp [hc, hlines]
      omega
    · cases rest <;> simp [hc, hlines, consFirst]
      omega

end Text

/-! ## The place behind a text -/

namespace Place

/-- The place behind a text is in its last line, one column behind the end. -/
theorem after_start (cs : List Char) :
    start.after cs = ⟨(Text.lines cs).length, (Text.lastLine cs).length + 1⟩ := by
  induction cs using List.reverseRecOn with
  | nil => rfl
  | append_singleton cs c ih =>
    rw [after_append, ih, Text.lastLine_concat, Text.length_lines, Text.length_lines]
    by_cases hc : c = '\n' <;> simp [after, step, hc]

/-- The segments in front of a placed one are what its place is behind. -/
theorem exists_of_mem_ofSegments {p q : Place} {segs : List Segment}
    (h : (q, s) ∈ p.ofSegments segs) : ∃ before behind, segs = before ++ s :: behind ∧
      q = p.after (before.map Segment.text).flatten := by
  induction segs generalizing p with
  | nil => cases h
  | cons t segs ih =>
    rw [ofSegments_cons] at h
    rcases List.mem_cons.1 h with h | h
    · cases h
      exact ⟨[], segs, rfl, rfl⟩
    · obtain ⟨before, behind, rfl, rfl⟩ := ih h
      exact ⟨t :: before, behind, rfl, by simp [after_append]⟩

end Place

/-! ## Segments of a source -/

/-- The segment is taken off the source behind the characters `before`. -/
def Segment.Behind (source before : List Char) (s : Segment) : Prop :=
  ∃ front back, segments source = front ++ s :: back ∧ (front.map Segment.text).flatten = before

namespace Segment.Behind

theorem eq_append (h : Behind source before s) : ∃ rest, source = before ++ (s.text ++ rest) := by
  obtain ⟨front, back, hsegs, rfl⟩ := h
  have hflat := flatten_segments source
  rw [hsegs, List.map_append, List.flatten_append] at hflat
  exact ⟨_, hflat.symm⟩

/-- What stands as a lexeme in a source is one. -/
theorem lexeme {cs : List Char} (h : Behind source before (.lexeme kind cs literal)) :
    Lexeme kind cs literal := by
  obtain ⟨front, back, hsegs, -⟩ := h
  cases (decomposes_segments source).munched front _ back hsegs with
  | longest hp =>
    cases hp with
    | lexeme hlexeme => exact hlexeme

end Segment.Behind

/-- A placed segment stands behind some characters, and its place is the place behind them. -/
theorem exists_behind (h : (p, s) ∈ Place.start.ofSegments (segments source)) :
    ∃ before, s.Behind source before ∧
      p = ⟨(Text.lines before).length, (Text.lastLine before).length + 1⟩ := by
  obtain ⟨front, back, hsegs, rfl⟩ := Place.exists_of_mem_ofSegments h
  exact ⟨_, ⟨front, back, hsegs, rfl⟩, Place.after_start _⟩

theorem exists_behind_of_token {t : Token} (ht : t ∈ (scan source).tokens)
    (hk : t.kind ≠ .eof) :
    ∃ before, (Segment.lexeme t.kind t.lexeme.toList t.literal).Behind source before ∧
      t.line = (Text.lines before).length ∧ t.column = (Text.lastLine before).length + 1 := by
  rcases List.mem_append.1 ht with ht | ht
  · obtain ⟨⟨p, s⟩, hmem, htoken⟩ := List.mem_filterMap.1 ht
    obtain ⟨before, hbehind, rfl⟩ := exists_behind hmem
    cases s with
    | lexeme kind text literal =>
      obtain rfl := Option.some.inj htoken
      exact ⟨before, by rwa [String.toList_ofList], rfl, rfl⟩
    | _ => cases htoken
  · rw [List.mem_singleton] at ht
    exact absurd (congrArg Token.kind ht) hk

/-- A lexeme does not begin with a newline. -/
theorem Lexeme.firstLine_ne_nil (h : Lexeme kind text literal) : Text.firstLine text ≠ [] := by
  have hdigits {ds : List Char} (rest : List Char) (hd : Digits ds) :
      Text.firstLine (ds ++ rest) ≠ [] := by
    obtain ⟨d, ds, rfl⟩ := List.exists_cons_of_ne_nil hd.1
    have hne : d ≠ '\n' := by
      rintro rfl
      exact absurd (hd.2 _ List.mem_cons_self) (by decide)
    rw [List.cons_append, Text.firstLine_cons hne]
    exact List.cons_ne_nil _ _
  have hword (hw : IsWord text) : Text.firstLine text ≠ [] := by
    obtain @⟨c, cs, hc, -⟩ := hw
    have hne : c ≠ '\n' := by
      rintro rfl
      exact absurd hc (by decide)
    rw [Text.firstLine_cons hne]
    exact List.cons_ne_nil _ _
  cases h with
  | mark hmem => exact (by decide : ∀ m ∈ marks, Text.firstLine m.1 ≠ []) _ hmem
  | whole hd => exact List.append_nil text ▸ hdigits [] hd
  | fraction hd => exact hdigits _ hd
  | string =>
    rw [List.cons_append, Text.firstLine_cons (by decide)]
    exact List.cons_ne_nil _ _
  | keyword hw | identifier hw => exact hword hw

/-! ## Tokens at their places -/

/-- The token stands at its line and column of a source. `line` is that line of the source, and from
the column on it reads as the first line of the lexeme, which is not empty. The offset that line and
column give is the one that the token was scanned from. -/
structure Token.StandsIn (t : Token) (source line : List Char) : Prop where
  line_pos : 1 ≤ t.line
  line_le : t.line ≤ (Text.lines source).length
  column_pos : 1 ≤ t.column
  line_eq : (Text.lines source)[t.line - 1]? = some line
  firstLine_ne_nil : Text.firstLine t.lexeme.toList ≠ []
  reads : Text.firstLine t.lexeme.toList <+: line.drop (t.column - 1)
  scanned : ∃ before, (Segment.lexeme t.kind t.lexeme.toList t.literal).Behind source before ∧
    before.length = Text.offset (Text.lines source) t.line t.column
  occurs : t.lexeme.toList <+: source.drop (Text.offset (Text.lines source) t.line t.column)

theorem exists_standsIn {t : Token} (ht : t ∈ (scan source).tokens) (hk : t.kind ≠ .eof) :
    ∃ line, t.StandsIn source line := by
  obtain ⟨before, hbehind, hline, hcolumn⟩ := exists_behind_of_token ht hk
  obtain ⟨rest, hsource⟩ := hbehind.eq_append
  change source = before ++ (t.lexeme.toList ++ rest) at hsource
  have hpos := List.length_pos_iff.2 (Text.lines_ne_nil before)
  have hoffset : Text.offset (Text.lines source) t.line t.column = before.length := by
    rw [Text.offset, hline, hcolumn, hsource, Text.take_lines_append, Nat.add_sub_cancel,
      Text.length_eq_offset]
  refine ⟨Text.lastLine before ++ Text.firstLine (t.lexeme.toList ++ rest), ?_⟩
  exact {
    line_pos := hline ▸ hpos
    line_le := by
      rw [hline, hsource]
      exact Text.length_lines_le ..
    column_pos := by omega
    line_eq := by rw [hline, hsource, Text.getElem?_lines_append]
    firstLine_ne_nil := hbehind.lexeme.firstLine_ne_nil
    reads := by
      rw [hcolumn, Nat.add_sub_cancel, List.drop_left]
      exact Text.firstLine_isPrefix_append ..
    scanned := ⟨before, hbehind, hoffset.symm⟩
    occurs := by
      rw [hoffset, hsource, List.drop_left]
      exact List.prefix_append .. }

/-! ## Quotations -/

/-- A line of a source, and below it some of its characters underlined, from a column on. -/
def quotation (line : List Char) (column length : Nat) : String :=
  "  " ++ String.ofList line ++ "\n" ++
    "  " ++ String.ofList (List.replicate (column - 1) ' ') ++
    String.ofList ('^' :: List.replicate (length - 1) '~')

/-- A report that says what its line reads is shown with that line, here without colors. -/
theorem Report.diagnose?_eq {r : Report} {source : List (List Char)} {line : List Char}
    (hn : 1 ≤ n) (hnumber : r.line = some n) (hline : source[n - 1]? = some line)
    (hcolumn : 1 ≤ r.column) (hfirst : Text.firstLine r.lexeme.toList ≠ [])
    (hreads : Text.firstLine r.lexeme.toList <+: line.drop (r.column - 1)) :
    r.diagnose? false source =
      some (quotation line r.column (Text.firstLine r.lexeme.toList).length) := by
  have hempty : r.lexeme.isEmpty = false := by
    refine Bool.eq_false_iff.2 fun h => hfirst ?_
    rw [String.isEmpty_iff.1 h]
    rfl
  have hwithin : r.column - 1 < line.length := by
    have hlength := hreads.length_le
    rw [List.length_drop] at hlength
    have := List.length_pos_iff.2 hfirst
    omega
  obtain ⟨rest, hrest⟩ := hreads
  have hquoted : r.quoted? line =
      some (line.take (r.column - 1), Text.firstLine r.lexeme.toList, rest) := by
    have hzero : r.column ≠ 0 := by omega
    simp [quoted?, hempty, hzero, Nat.not_lt.2 hwithin.le, ← hrest]
  have hwhole : String.ofList line = String.ofList (line.take (r.column - 1)) ++
      String.ofList (Text.firstLine r.lexeme.toList) ++ String.ofList rest := by
    rw [← String.ofList_append, ← String.ofList_append, List.append_assoc, hrest,
      List.take_append_drop]
  have hindent : (line.take (r.column - 1)).length = r.column - 1 := by
    rw [List.length_take]
    omega
  have hn0 : n ≠ 0 := by omega
  simp [diagnose?, hnumber, hn0, hline, hquoted, quotation, Style.paint, hwhole, hindent,
    String.append_assoc]

/-! ## Reports of the scanner -/

/-- What the scanner reports of a source: a stray character on the line that it stands on, and a
string that is never closed on the last line. -/
inductive ReportedOf (source : List Char) : Report → Prop where
  | stray : (Segment.stray c).Behind source before →
    ReportedOf source
      (.onLine (Text.lines before).length ("Unexpected character: " ++ String.ofList [c]))
  | unclosed : (Segment.unclosed text).Behind source before →
    ReportedOf source (.onLine (Text.lines source).length "Unterminated string.")

theorem reportedOf_scan (hr : r ∈ (scan source).reports) : ReportedOf source r := by
  obtain ⟨⟨p, s⟩, hmem, hreport⟩ := List.mem_filterMap.1 hr
  obtain ⟨before, hbehind, rfl⟩ := exists_behind hmem
  cases s with
  | stray c =>
    obtain rfl := Option.some.inj hreport
    exact .stray hbehind
  | unclosed text =>
    obtain rfl := Option.some.inj hreport
    obtain ⟨front, back, hsegs, rfl⟩ := id hbehind
    have hback : (back.map Segment.text).flatten = [] :=
      ((decomposes_segments source).munched front _ back hsegs).eq_nil_of_unclosed
    have hend : (front.map Segment.text).flatten ++ text = source := by
      have hflat := flatten_segments source
      simpa [hsegs, hback, Segment.text] using hflat
    rw [← Place.after_start, ← Place.after_append, hend, Place.after_start]
    exact .unclosed hbehind
  | _ => cases hreport

/-! ## Scanning a registered source -/

theorem Log.source_complainAll (rs : List Report) (log : Log) :
    (log.complainAll rs).source = log.source ∧ (log.complainAll rs).colored = log.colored := by
  induction rs generalizing log with
  | nil => exact ⟨rfl, rfl⟩
  | cons r rs ih => exact ih (log.complain r)

/-- When a source has been registered and scanned, each of its tokens stands in it, and a report at
the token, static or at run time, is shown with the line and the first line of the lexeme underlined
there. Stray characters are reported on their lines, and a string that is never closed on the last
one. -/
theorem scanned_tokens_quoted {s : Session} (hplain : s.log.colored = false)
    (path source : String) :
    let scanned := s.scanSource path source
    (∀ t ∈ scanned.1, t.kind ≠ .eof → ∃ line, t.StandsIn source.toList line ∧
      ∀ message, ∀ r ∈ [Report.atToken t message, .atRuntime (some t) message],
        scanned.2.log.diagnose? r =
          some (quotation line t.column (Text.firstLine t.lexeme.toList).length)) ∧
    ∀ r ∈ (scan source.toList).reports, ReportedOf source.toList r := by
  refine ⟨fun t ht hk => ?_, fun r hr => reportedOf_scan hr⟩
  obtain ⟨line, hstands⟩ := exists_standsIn ht hk
  refine ⟨line, hstands, fun message r hr => ?_⟩
  obtain ⟨hsource, hcolored⟩ := Log.source_complainAll (scan source.toList).reports
    (s.log.register path source)
  have hregistered : (s.log.register path source).source = Text.lines source.toList := by
    simp [Log.source, Log.register]
  have hat : r.line = some t.line ∧ r.column = t.column ∧ r.lexeme = t.lexeme := by
    simp only [List.mem_cons, List.not_mem_nil, or_false] at hr
    rcases hr with rfl | rfl <;> exact ⟨rfl, rfl, rfl⟩
  obtain ⟨hline, hcolumn, hlexeme⟩ := hat
  have hfirst := hstands.firstLine_ne_nil
  have hreads := hstands.reads
  have hpos := hstands.column_pos
  rw [← hlexeme] at hfirst hreads ⊢
  rw [← hcolumn] at hreads hpos ⊢
  rw [Log.diagnose?, Session.scanSource, Session.report, hcolored, hsource, hregistered]
  change r.diagnose? s.log.colored _ = _
  rw [hplain]
  exact r.diagnose?_eq hstands.line_pos hline hstands.line_eq hpos hfirst hreads

/-- A token behind a string of two lines, the first of them with the quote alone. -/
theorem scanned_tokens_quoted_behind_string :
    ∃ t, let scanned := (Session.start false).scanSource "<in>" "print \"\nb\" + c; @\n\"d"
      (Session.start false).log.colored = false ∧ t ∈ scanned.1 ∧ t.kind = .identifier ∧
      scanned.2.log.diagnose? (.atToken t "") = some "  b\" + c; @\n       ^" := by
  have ht : (⟨.identifier, "c", none, 2, 6⟩ : Token) ∈
      ((Session.start false).scanSource "<in>" "print \"\nb\" + c; @\n\"d").1 := by decide +kernel
  obtain ⟨hquoted, -⟩ := scanned_tokens_quoted (s := .start false) rfl "<in>"
    "print \"\nb\" + c; @\n\"d"
  obtain ⟨line, hstands, hshown⟩ := hquoted _ ht nofun
  obtain rfl : "b\" + c; @".toList = line :=
    Option.some.inj (.trans (by decide +kernel) hstands.line_eq)
  exact ⟨_, rfl, ht, rfl, (hshown "" _ List.mem_cons_self).trans (by decide +kernel)⟩

end LoxLang
