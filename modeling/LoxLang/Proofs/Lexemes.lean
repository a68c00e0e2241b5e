import LoxLang.Proofs.Piecewise.Sources
import LoxLang.Text.Blank

/-!
# Contents of lexemes

What the tokens of a source say, wherever they stand (`Token.content`): each lexeme with its kind
and its constant. And what the characters of a lexeme can be: it never ends in a blank, only
semicolons and closing braces end in one (`LastOf`), and only strings hold a quote (`eq_string`).
-/

namespace LoxLang

/-- What a token is, wherever it stands. -/
def Token.content (t : Token) : TokenKind × String × Option Constant :=
  (t.kind, t.lexeme, t.literal)

namespace Segment

/-- What the token of a segment says. -/
def content? : Segment → Option (TokenKind × String × Option Constant)
  | lexeme kind text literal => some (kind, String.ofList text, literal)
  | _ => none

theorem content_token? (p : Place) (s : Segment) : (s.token? p).map Token.content = s.content? := by
  cases s <;> rfl

end Segment

/-- Where the segments stand is not seen. -/
theorem content_words (source : List Char) :
    (words source).map Token.content = (segments source).filterMap Segment.content? := by
  have hplaced := congrArg (List.filterMap Segment.content?)
    (Place.map_snd_ofSegments .start (segments source))
  rw [List.filterMap_map] at hplaced
  rw [words, List.map_filterMap, ← hplaced]
  congr 1
  funext q
  exact Segment.content_token? q.1 q.2

/-! ## The characters of a lexeme -/

/-- What the last character says of a lexeme of a kind. -/
structure LastOf (kind : TokenKind) (c : Char) : Prop where
  visible : Text.isBlank c = false
  semicolon : c = ';' ↔ kind = .semicolon
  brace : c = '}' ↔ kind = .rightBrace

theorem isBlank_of_isWordChar (h : Segment.isWordChar c) : Text.isBlank c = false := by
  simp only [Segment.isWordChar, Segment.isAlpha, Number.isDigit, Bool.or_eq_true,
    Bool.and_eq_true, decide_eq_true_eq, beq_iff_eq, Char.le_def, UInt32.le_iff_toNat_le] at h
  simp only [Text.isBlank, Text.blankRanges, List.any_cons, List.any_nil, Bool.or_false,
    Bool.or_eq_false_iff, Bool.and_eq_false_iff, decide_eq_false_iff_not, Char.toNat]
  have ha : 'a'.val.toNat = 97 := rfl
  have hz : 'z'.val.toNat = 122 := rfl
  have hA : 'A'.val.toNat = 65 := rfl
  have hZ : 'Z'.val.toNat = 90 := rfl
  have h0 : '0'.val.toNat = 48 := rfl
  have h9 : '9'.val.toNat = 57 := rfl
  rcases h with ((h | h) | rfl) | h
  · omega
  · omega
  · decide
  · omega

theorem lastOf_wordChar (h : Segment.isWordChar c) (hs : kind ≠ .semicolon)
    (hb : kind ≠ .rightBrace) : LastOf kind c where
  visible := isBlank_of_isWordChar h
  semicolon := by
    refine iff_of_false ?_ hs
    rintro rfl
    exact absurd h (by decide)
  brace := by
    refine iff_of_false ?_ hb
    rintro rfl
    exact absurd h (by decide)

namespace Lexeme

theorem isWordChar_digits (h : Digits ds) : ∀ c ∈ ds, Segment.isWordChar c :=
  fun c hc => by simp [Segment.isWordChar, h.2 c hc]

theorem isWordChar_word (h : IsWord text) : ∀ c ∈ text, Segment.isWordChar c := by
  obtain ⟨hc, hcs⟩ := h
  exact List.forall_mem_cons.2 ⟨by simp [Segment.isWordChar, hc], hcs⟩

theorem exists_last (h : Lexeme kind text literal) :
    ∃ front c, text = front ++ [c] ∧ LastOf kind c := by
  have hword (front : List Char) {cs : List Char} (hcs : cs ≠ [])
      (hall : ∀ c ∈ cs, Segment.isWordChar c) (hs : kind ≠ .semicolon) (hb : kind ≠ .rightBrace) :
      ∃ init c, front ++ cs = init ++ [c] ∧ LastOf kind c := by
    refine ⟨front ++ cs.dropLast, cs.getLast hcs, ?_,
      lastOf_wordChar (hall _ (List.getLast_mem hcs)) hs hb⟩
    rw [List.append_assoc, List.dropLast_concat_getLast hcs]
  have hname (hw : IsWord text) := hword [] (by obtain ⟨-, -⟩ := hw; simp) (isWordChar_word hw)
  cases h with
  | mark hmem =>
    have hmarks : ∀ m ∈ marks, m.1.getLast?.any fun c => !Text.isBlank c &&
        decide (c = ';' ↔ m.2 = .semicolon) && decide (c = '}' ↔ m.2 = .rightBrace) := by decide
    obtain ⟨c, hc, hlast⟩ := (Option.any_eq_true _ _).1 (hmarks _ hmem)
    obtain ⟨front, rfl⟩ := List.getLast?_eq_some_iff.1 hc
    simp only [Bool.and_eq_true, Bool.not_eq_true', decide_eq_true_eq] at hlast
    exact ⟨front, c, rfl, hlast.1.1, hlast.1.2, hlast.2⟩
  | whole hd => exact hword [] hd.1 (isWordChar_digits hd) (by decide) (by decide)
  | @fraction ds es _ he =>
    obtain ⟨front, c, heq, hlast⟩ :=
      hword (ds ++ ['.']) he.1 (isWordChar_digits he) (by decide) (by decide)
    exact ⟨front, c, by simpa using heq, hlast⟩
  | @string body _ => exact ⟨'"' :: body, '"', rfl, by decide, by decide, by decide⟩
  | keyword hw hk =>
    have hkind := (by decide : ∀ k ∈ keywords, k.2 ≠ .semicolon ∧ k.2 ≠ .rightBrace) _ hk
    exact hname hw hkind.1 hkind.2
  | identifier hw => exact hname hw (by decide) (by decide)

/-- Only strings hold a quote, and hold two. -/
theorem eq_string (h : Lexeme kind text literal) (hq : '"' ∈ text) :
    ∃ body, '"' ∉ body ∧ text = '"' :: body ++ ['"'] := by
  have hword (hall : ∀ c ∈ text, Segment.isWordChar c) : False :=
    absurd (hall _ hq) (by decide)
  cases h with
  | mark hmem => exact absurd hq ((by decide : ∀ m ∈ marks, '"' ∉ m.1) _ hmem)
  | whole hd => exact (hword (isWordChar_digits hd)).elim
  | fraction hd he =>
    rcases List.mem_append.1 hq with hq | hq
    · exact absurd (isWordChar_digits hd _ hq) (by decide)
    · rcases List.mem_cons.1 hq with hq | hq
      · exact absurd hq (by decide)
      · exact absurd (isWordChar_digits he _ hq) (by decide)
  | string hbody => exact ⟨_, hbody, rfl⟩
  | keyword hw | identifier hw => exact (hword (isWordChar_word hw)).elim

end Lexeme

end LoxLang
