import LoxLang.Proofs.MaximalMunch
import LoxLang.Prompt.Line
import Mathlib.Data.List.DropRight

/-!
# Inputs that go on

Whether an input continues on the next line is judged by its characters, without scanning it. The
judgement passes over the segments that the scanner makes of the input one by one: none is left half
way, and each counts for the parenthesis or brace that it opens or closes (`Scanned.nesting`). So it
is the judgement that the scanned tokens and reports would lead to
(`continues_iff_scan_calls_for_more`).
-/

namespace LoxLang

namespace TokenKind

/-- The kinds that leave something to be closed. -/
def opens : TokenKind → Bool
  | .leftParen | .leftBrace => true
  | _ => false

/-- The kinds that close what another has left to be closed. -/
def closes : TokenKind → Bool
  | .rightParen | .rightBrace => true
  | _ => false

end TokenKind

/-- What the scanner says of a string that is never closed. -/
def unterminated : String := "Unterminated string."

/-- Whether the tokens and reports of a text call for more: a string is not closed, or of the
parentheses and braces together more are opened than closed. -/
def Scan.CallsForMore (scanned : Scan) : Prop :=
  (∃ r ∈ scanned.reports, r.message = unterminated) ∨
    scanned.tokens.countP (·.kind.closes) < scanned.tokens.countP (·.kind.opens)

/-! ## Passing over segments -/

namespace Segment

/-- By how many a segment changes the number of open parentheses and braces. -/
def nesting : Segment → Int
  | lexeme kind _ _ => if kind.opens then 1 else if kind.closes then -1 else 0
  | _ => 0

/-- By how many segments change it together. -/
def nestings : List Segment → Int
  | [] => 0
  | s :: ss => s.nesting + nestings ss

/-- Whether a segment is a string that is never closed. -/
def isUnclosed : Segment → Bool
  | unclosed _ => true
  | _ => false

end Segment

namespace Line

/-- The characters that begin no string or comment, and open and close nothing. -/
def isPlain (c : Char) : Bool := !(['"', '/', '(', ')', '{', '}'].contains c)

theorem leavesOpen_plain (h : isPlain c) :
    leavesOpen .code depth (c :: rest) = leavesOpen .code depth rest := by
  simp only [isPlain, List.contains_cons, List.contains_nil, Bool.or_false, Bool.not_eq_true',
    Bool.or_eq_false_iff, beq_eq_false_iff_ne, ne_eq] at h
  obtain ⟨h1, h2, h3, h4, h5, h6⟩ := h
  rw [leavesOpen.eq_def]
  split <;> simp_all

theorem leavesOpen_plains {cs : List Char} (h : ∀ c ∈ cs, isPlain c) :
    leavesOpen .code depth (cs ++ rest) = leavesOpen .code depth rest := by
  induction cs with
  | nil => rfl
  | cons c cs ih =>
    rw [List.cons_append, leavesOpen_plain (h c List.mem_cons_self),
      ih fun d hd => h d (List.mem_cons_of_mem _ hd)]

theorem isPlain_of_isWordChar (h : Segment.isWordChar c) : isPlain c := by
  simp only [isPlain, List.contains_eq_mem, Bool.not_eq_true', decide_eq_false_iff_not]
  intro hc
  simp only [List.mem_cons, List.not_mem_nil, or_false] at hc
  rcases hc with rfl | rfl | rfl | rfl | rfl | rfl <;> exact absurd h (by decide)

theorem isPlain_of_isDigit (h : Number.isDigit c) : isPlain c :=
  isPlain_of_isWordChar (by simp [Segment.isWordChar, h])

theorem leavesOpen_body {body : List Char} (h : '"' ∉ body) :
    leavesOpen .quoted depth (body ++ rest) = leavesOpen .quoted depth rest := by
  induction body with
  | nil => rfl
  | cons c body ih =>
    rw [List.mem_cons, not_or] at h
    rw [List.cons_append, leavesOpen, if_neg (Ne.symm h.1), ih h.2]

/-- A comment is left at its newline, which is code again, or at the end. -/
theorem leavesOpen_comment {text : List Char} (h : '\n' ∉ text)
    (hrest : ∀ c ∈ rest.head?, c = '\n') :
    leavesOpen .comment depth (text ++ rest) = leavesOpen .code depth rest := by
  induction text with
  | nil =>
    cases rest with
    | nil => rfl
    | cons c rest =>
      obtain rfl := hrest c rfl
      rw [leavesOpen_plain rfl]
      rfl
  | cons c text ih =>
    rw [List.mem_cons, not_or] at h
    rw [List.cons_append, leavesOpen, if_neg (Ne.symm h.1), ih h.2]

theorem leavesOpen_word {text : List Char} (h : IsWord text) :
    leavesOpen .code depth (text ++ rest) = leavesOpen .code depth rest := by
  obtain ⟨hc, hcs⟩ := h
  refine leavesOpen_plains ?_
  rintro d (_ | ⟨_, hd⟩)
  · exact isPlain_of_isWordChar (by simp [Segment.isWordChar, hc])
  · exact isPlain_of_isWordChar (hcs d hd)

/-- The lexemes of the marks that open or close. -/
theorem bracket_of_mem_marks (h : (text, kind) ∈ marks) :
    (∀ c ∈ text, isPlain c) ∧ kind.opens = false ∧ kind.closes = false ∨
      text ∈ [['('], ['{']] ∧ kind.opens ∨
      text ∈ [[')'], ['}']] ∧ kind.closes ∧ kind.opens = false ∨
      text = ['/'] ∧ kind = .slash := by
  have hall : ∀ m ∈ marks, m.1.all isPlain ∧ m.2.opens = false ∧ m.2.closes = false ∨
      m.1 ∈ [['('], ['{']] ∧ m.2.opens ∨
      m.1 ∈ [[')'], ['}']] ∧ m.2.closes ∧ m.2.opens = false ∨
      m.1 = ['/'] ∧ m.2 = .slash := by decide
  simpa only [List.all_eq_true] using hall _ h

theorem leavesOpen_slash (h : rest.head? ≠ some '/') :
    leavesOpen .code depth ('/' :: rest) = leavesOpen .code depth rest := by
  rw [leavesOpen]
  · rintro tail - rfl
    exact h rfl
  all_goals nofun

/-- A mark opens or closes what its kind does, and a slash is no comment by itself. -/
theorem leavesOpen_mark {text : List Char} (h : (text, kind) ∈ marks)
    (hslash : text = ['/'] → rest.head? ≠ some '/') :
    leavesOpen .code depth (text ++ rest) =
      leavesOpen .code (depth + (Segment.mark kind text).nesting) rest := by
  rcases bracket_of_mem_marks h with ⟨hplain, ho, hc⟩ | ⟨htext, ho⟩ | ⟨htext, hc, ho⟩ |
    ⟨rfl, rfl⟩
  · rw [leavesOpen_plains hplain]
    simp [Segment.mark, Segment.nesting, ho, hc]
  · have hone : (Segment.mark kind text).nesting = 1 := by
      simp [Segment.mark, Segment.nesting, ho]
    rw [hone]
    simp only [List.mem_cons, List.not_mem_nil, or_false] at htext
    rcases htext with rfl | rfl <;> rfl
  · have hone : (Segment.mark kind text).nesting = -1 := by
      simp [Segment.mark, Segment.nesting, ho, hc]
    rw [hone]
    simp only [List.mem_cons, List.not_mem_nil, or_false] at htext
    rcases htext with rfl | rfl <;> rfl
  · refine (leavesOpen_slash (hslash rfl)).trans ?_
    simp [Segment.mark, Segment.nesting, TokenKind.opens, TokenKind.closes]

theorem leavesOpen_lexeme {text : List Char} (h : Lexeme kind text literal)
    (hslash : text = ['/'] → rest.head? ≠ some '/') :
    leavesOpen .code depth (text ++ rest) =
      leavesOpen .code (depth + (Segment.lexeme kind text literal).nesting) rest := by
  have flat (ho : kind.opens = false) (hc : kind.closes = false)
      (h : leavesOpen .code depth (text ++ rest) = leavesOpen .code depth rest) :
      leavesOpen .code depth (text ++ rest) =
        leavesOpen .code (depth + (Segment.lexeme kind text literal).nesting) rest := by
    simpa [Segment.nesting, ho, hc] using h
  cases h with
  | mark hmem => exact leavesOpen_mark hmem hslash
  | whole hd => exact flat rfl rfl (leavesOpen_plains fun d h => isPlain_of_isDigit (hd.2 d h))
  | fraction hd he =>
    refine flat rfl rfl (leavesOpen_plains fun c hc => ?_)
    rcases List.mem_append.1 hc with hc | hc
    · exact isPlain_of_isDigit (hd.2 c hc)
    · rcases List.mem_cons.1 hc with rfl | hc
      · rfl
      · exact isPlain_of_isDigit (he.2 c hc)
  | string hbody =>
    refine flat rfl rfl ?_
    rw [List.cons_append, List.cons_append, List.append_assoc]
    exact leavesOpen_body hbody
  | keyword hw hk =>
    have hkind : kind.opens = false ∧ kind.closes = false :=
      (by decide : ∀ k ∈ keywords, k.2.opens = false ∧ k.2.closes = false) _ hk
    exact flat hkind.1 hkind.2 (leavesOpen_word hw)
  | identifier hw => exact flat rfl rfl (leavesOpen_word hw)

end Line

namespace Segment

/-- A slash that is a lexeme is not the first of two, which are a longer phrase. -/
theorem Munched.head?_ne_slash (h : (Segment.lexeme kind ['/'] literal).Munched rest) :
    rest.head? ≠ some '/' := by
  intro hhead
  obtain ⟨tail, rfl⟩ := List.head?_eq_some_iff.1 hhead
  cases h with
  | longest _ hmax =>
    have hcomment : Phrase (.comment ['/', '/']) := .comment List.not_mem_nil
    exact absurd (hmax _ hcomment ⟨tail, rfl⟩).length_le (by simp [Segment.text])

/-- A comment goes on until a newline. -/
theorem Munched.head?_eq_newline {cs : List Char}
    (h : (Segment.comment ('/' :: '/' :: cs)).Munched rest) (hcs : '\n' ∉ cs) :
    ∀ c ∈ rest.head?, c = '\n' := by
  intro c hc
  obtain ⟨tail, rfl⟩ := List.head?_eq_some_iff.1 hc
  by_contra hne
  cases h with
  | longest _ hmax =>
    have hlonger : '\n' ∉ cs ++ [c] := by simp [hcs, Ne.symm hne]
    exact absurd (hmax _ (.comment hlonger) ⟨tail, by simp [Segment.text]⟩).length_le
      (by simp [Segment.text])

/-- All but the quote of the characters that are not plain are marks by themselves. -/
theorem Munched.isPlain_stray (h : (Segment.stray c).Munched rest) : Line.isPlain c := by
  by_contra hplain
  cases h with
  | longest hp => exact not_phrase_stray hp
  | stray hc hnone =>
    have hmark : ∃ m ∈ marks, m.1 = [c] := by
      simp only [Line.isPlain, Bool.not_eq_true', Bool.not_eq_false, List.contains_iff_mem,
        List.mem_cons, List.not_mem_nil, or_false, hc, false_or] at hplain
      rcases hplain with rfl | rfl | rfl | rfl | rfl <;> decide
    obtain ⟨⟨cs, kind⟩, hmem, rfl⟩ := hmark
    exact hnone _ (phrase_mark hmem) ⟨_, rfl⟩

/-- A segment is passed over from code to code, but for a string that is never closed. -/
theorem Munched.leavesOpen {s : Segment} (h : s.Munched rest) :
    Line.leavesOpen .code depth (s.text ++ rest) =
      (s.isUnclosed || Line.leavesOpen .code (depth + s.nesting) rest) := by
  cases h with
  | longest hp hmax =>
    cases hp with
    | lexeme hlexeme =>
      refine Line.leavesOpen_lexeme hlexeme ?_
      rintro rfl
      exact Munched.head?_ne_slash (.longest (.lexeme hlexeme) hmax)
    | blank hc =>
      have hall : [' ', '\t', '\r', '\n'].all Line.isPlain := by decide
      have hplain := List.all_eq_true.1 hall _ hc
      simpa [text, isUnclosed, nesting] using Line.leavesOpen_plain hplain
    | comment htext =>
      have hhead := Munched.head?_eq_newline (.longest (.comment htext) hmax) htext
      simpa [Segment.text, isUnclosed, nesting, Line.leavesOpen] using
        Line.leavesOpen_comment htext hhead
  | stray hc hnone =>
    have hplain := Munched.isPlain_stray (.stray hc hnone)
    simpa [text, isUnclosed, nesting] using Line.leavesOpen_plain hplain
  | unclosed hbody =>
    have hend := @Line.leavesOpen_body depth [] _ hbody
    simpa [text, isUnclosed, Line.leavesOpen] using hend

end Segment

/-! ## Passing over a text -/

theorem Decomposes.leavesOpen {ss : List Segment} (h : Decomposes source ss) (depth : Int) :
    Line.leavesOpen .code depth source =
      (ss.any Segment.isUnclosed || decide (0 < depth + Segment.nestings ss)) := by
  induction ss generalizing source depth with
  | nil =>
    obtain rfl := h.flatten
    simp [Line.leavesOpen, Segment.nestings]
  | cons s ss ih =>
    obtain rfl := h.flatten
    rw [List.map_cons, List.flatten_cons, h.head.leavesOpen, ih h.tail, List.any_cons,
      Bool.or_assoc, Segment.nestings, Int.add_assoc]

/-- The tokens of segments open and close what the segments do. -/
theorem Scanned.nesting (h : Scanned p ss ts rs) :
    Segment.nestings ss = (ts.countP (·.kind.opens) : Int) - ts.countP (·.kind.closes) := by
  induction h with
  | done => rfl
  | @lexeme text ss ts rs kind literal p hss ih =>
    simp only [Segment.nestings, ih, Segment.nesting, List.countP_cons]
    have hone : kind.opens → kind.closes = false := by cases kind <;> decide
    by_cases ho : kind.opens
    · simp [ho, hone ho]; omega
    · by_cases hc : kind.closes
      · simp [ho, hc]; omega
      · simp [ho, hc]
  | blank _ ih | comment _ ih | stray _ ih | unclosed _ ih =>
    simpa [Segment.nestings, Segment.nesting] using ih

/-- What is reported of a stray character is not what is said of a string. -/
theorem stray_message_ne (c : Char) :
    "Unexpected character: " ++ String.ofList [c] ≠ unterminated := by
  intro h
  have := congrArg (fun s => s.toList[2]?) h
  simp [unterminated] at this

/-- The segments hold a string that is never closed if this is reported. -/
theorem Scanned.any_isUnclosed (h : Scanned p ss ts rs) :
    ss.any Segment.isUnclosed = true ↔ ∃ r ∈ rs, r.message = unterminated := by
  induction h with
  | done => simp
  | lexeme _ ih | blank _ ih | comment _ ih => simpa [Segment.isUnclosed] using ih
  | stray _ ih =>
    rw [List.exists_mem_cons_iff]
    exact ih.trans (or_iff_right (stray_message_ne _)).symm
  | unclosed => simp [Segment.isUnclosed, Report.onLine, unterminated]

/-! ## Inputs -/

/-- A text without the blanks at its end: nothing else is taken away, and no blank is left there. -/
structure Text.Trimmed (input trimmed : List Char) : Prop where
  blanks : ∃ tail, input = trimmed ++ tail ∧ ∀ c ∈ tail, Text.isBlank c
  last : ∀ c ∈ trimmed.getLast?, Text.isBlank c = false

theorem Text.trimmed_trimEnd (input : List Char) : Text.Trimmed input (Text.trimEnd input) where
  blanks := by
    refine ⟨input.rtakeWhile Text.isBlank, ?_, fun c => List.mem_rtakeWhile_imp⟩
    exact (List.rdropWhile_append_rtakeWhile ..).symm
  last := by
    intro c hc
    rw [Text.trimEnd, List.getLast?_reverse, Option.mem_def] at hc
    have hstop := List.head?_dropWhile_not (p := Text.isBlank) (l := input.reverse)
    rwa [hc] at hstop

/-- Without the blanks at its end, an input continues on the next line exactly if its tokens and
reports call for more. -/
theorem continues_iff_scan_calls_for_more (input : List Char) :
    Text.Trimmed input (Text.trimEnd input) ∧
      (Line.unfinished (Text.trimEnd input) = true ↔
        (scan (Text.trimEnd input)).CallsForMore) := by
  refine ⟨Text.trimmed_trimEnd input, ?_⟩
  generalize Text.trimEnd input = t
  have hss := decomposes_segments t
  have hscanned : Scanned .start (segments t) (scan t).tokens (scan t).reports :=
    scanned_ofSegments .start hss
  rw [Line.unfinished, hss.leavesOpen, Bool.or_eq_true, hscanned.any_isUnclosed,
    hscanned.nesting, decide_eq_true_eq, Scan.CallsForMore]
  refine or_congr_right ?_
  omega

end LoxLang
