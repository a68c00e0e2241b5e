import LoxLang.Lexical.Scan
import Mathlib.Data.List.TakeWhile
import Mathlib.Data.Char

/-!
# Maximal munch

The lexical grammar is given as a relation (`Lexeme`, `Phrase`) that says which texts are lexemes,
blanks and comments, and nothing about where one ends when another could follow. A segment is
munched off a text when no phrase at its place is longer (`Segment.Munched`). The segments of a
source are its only decomposition into munched segments, and its tokens and reports are those of the
segments, one after the other (`scan_maximal_munch`).
-/

namespace LoxLang

/-! ## The lexical grammar -/

/-- The lexemes that are no words and denote no constants. -/
def marks : List (List Char × TokenKind) :=
  [(['('], .leftParen), ([')'], .rightParen), (['{'], .leftBrace), (['}'], .rightBrace),
   ([','], .comma), (['.'], .dot), (['-'], .minus), (['+'], .plus), ([';'], .semicolon),
   (['*'], .star), (['/'], .slash),
   (['!'], .bang), (['!', '='], .bangEqual), (['='], .equal), (['=', '='], .equalEqual),
   (['>'], .greater), (['>', '='], .greaterEqual), (['<'], .less), (['<', '='], .lessEqual)]

/-- The words with a kind of their own. -/
def keywords : List (String × TokenKind) :=
  [("and", .kwAnd), ("class", .kwClass), ("else", .kwElse), ("false", .kwFalse), ("for", .kwFor),
   ("fun", .kwFun), ("if", .kwIf), ("nil", .kwNil), ("or", .kwOr), ("print", .kwPrint),
   ("return", .kwReturn), ("super", .kwSuper), ("this", .kwThis), ("true", .kwTrue),
   ("var", .kwVar), ("while", .kwWhile)]

/-- One digit or more. -/
def Digits (cs : List Char) : Prop := cs ≠ [] ∧ ∀ c ∈ cs, Number.isDigit c

/-- A letter, then letters and digits. -/
inductive IsWord : List Char → Prop
  | mk : Segment.isAlpha c → (∀ d ∈ cs, Segment.isWordChar d) → IsWord (c :: cs)

/-- Which texts are lexemes, of which kind, and which constant they denote. -/
inductive Lexeme : TokenKind → List Char → Option Constant → Prop
  | mark : (text, kind) ∈ marks → Lexeme kind text none
  | whole : Digits ds → Lexeme .number ds (some (.number (Number.ofNumeral ds)))
  | fraction : Digits ds → Digits es →
    Lexeme .number (ds ++ '.' :: es) (some (.number (Number.ofNumeral (ds ++ '.' :: es))))
  | string : '"' ∉ body → Lexeme .string ('"' :: body ++ ['"']) (some (.string (.ofList body)))
  | keyword : IsWord text → (String.ofList text, kind) ∈ keywords → Lexeme kind text none
  | identifier : IsWord text → (∀ kind, (String.ofList text, kind) ∉ keywords) →
    Lexeme .identifier text none

/-- The segments that the lexical grammar knows. -/
inductive Phrase : Segment → Prop
  | lexeme : Lexeme kind text literal → Phrase (.lexeme kind text literal)
  | blank : c ∈ [' ', '\t', '\r', '\n'] → Phrase (.blank c)
  | comment : '\n' ∉ text → Phrase (.comment ('/' :: '/' :: text))

/-- The segment is what the lexical grammar makes of its place when `rest` follows it: the longest
phrase, or a character with which no phrase begins, or a quote that no other quote follows. -/
inductive Segment.Munched : Segment → List Char → Prop
  | longest : Phrase s → (∀ t, Phrase t → t.text <+: s.text ++ rest → t.text <+: s.text) →
    Munched s rest
  | stray : c ≠ '"' → (∀ t, Phrase t → ¬ t.text <+: c :: rest) → Munched (.stray c) rest
  | unclosed : '"' ∉ body → Munched (.unclosed ('"' :: body)) []

/-- The segments make up the source, and each is munched off what the ones before it have left. -/
structure Decomposes (source : List Char) (ss : List Segment) : Prop where
  flatten : (ss.map Segment.text).flatten = source
  munched : ∀ before s after, ss = before ++ s :: after →
    s.Munched (after.map Segment.text).flatten

/-- The tokens and reports of segments, the first of which stands at `p`: a token for each lexeme, a
report for each stray character and each unclosed string, and at the end the token of the end. -/
inductive Scanned : Place → List Segment → List Token → List Report → Prop
  | done : Scanned p [] [⟨.eof, "", none, p.line, p.column⟩] []
  | lexeme : Scanned (p.after text) ss ts rs →
    Scanned p (.lexeme kind text literal :: ss)
      (⟨kind, .ofList text, literal, p.line, p.column⟩ :: ts) rs
  | blank : Scanned (p.after [c]) ss ts rs → Scanned p (.blank c :: ss) ts rs
  | comment : Scanned (p.after text) ss ts rs → Scanned p (.comment text :: ss) ts rs
  | stray : Scanned (p.after [c]) ss ts rs →
    Scanned p (.stray c :: ss) ts
      (.onLine p.line ("Unexpected character: " ++ .ofList [c]) :: rs)
  | unclosed : Scanned (p.after text) [] ts [] →
    Scanned p [.unclosed text] ts [.onLine (p.after text).line "Unterminated string."]

/-! ## The segment at a place -/

namespace Segment

/-- A run of characters ends where it has to. -/
theorem takeWhile_run {p : Char → Bool} {cs rest : List Char} (run : ∀ c ∈ cs, p c)
    (stop : ∀ c ∈ rest.head?, p c = false) : (cs ++ rest).takeWhile p = cs := by
  rw [List.takeWhile_append_of_pos run]
  cases rest with
  | nil => simp
  | cons c rest => simp [stop c rfl]

/-- A piece at the front of a text whose characters are in a class is part of the longest one. -/
theorem isPrefix_takeWhile {p : Char → Bool} {cs ds : List Char} (h : cs <+: ds)
    (hp : ∀ c ∈ cs, p c) : cs <+: ds.takeWhile p := by
  obtain ⟨tail, rfl⟩ := h
  rw [List.takeWhile_append_of_pos hp]
  exact List.prefix_append _ _

theorem next_single (h : single? c = some kind) : next c rest = mark kind [c] := by
  simp only [next, h]

theorem next_double (h : double? c = some (alone, withEqual)) :
    next c rest = if rest.head? = some '=' then mark withEqual [c, '='] else mark alone [c] := by
  have hs : single? c = none := by
    unfold double? at h
    split at h <;> cases h <;> rfl
  simp only [next, hs, h]

theorem next_slash : next '/' rest = if rest.head? = some '/' then
    comment ('/' :: rest.takeWhile (· != '\n')) else mark .slash ['/'] := rfl

theorem next_blank (h : c ∈ [' ', '\t', '\r', '\n']) : next c rest = blank c := by
  simp only [List.mem_cons, List.not_mem_nil, or_false] at h
  rcases h with rfl | rfl | rfl | rfl <;> rfl

theorem next_quote : next '"' rest =
    if (rest.takeWhile (· != '"')).length < rest.length then
      lexeme .string ('"' :: rest.takeWhile (· != '"') ++ ['"'])
        (some (.string (.ofList (rest.takeWhile (· != '"')))))
    else unclosed ('"' :: rest) := rfl

theorem next_closed (h : '"' ∉ body) : next '"' (body ++ '"' :: rest) =
    lexeme .string ('"' :: body ++ ['"']) (some (.string (.ofList body))) := by
  have hbody : (body ++ '"' :: rest).takeWhile (· != '"') = body :=
    takeWhile_run (fun c hc => bne_iff_ne.2 (ne_of_mem_of_not_mem hc h)) (by simp)
  rw [next_quote, hbody, if_pos (by simp)]

theorem next_unclosed (h : '"' ∉ rest) : next '"' rest = unclosed ('"' :: rest) := by
  have hrest : (rest ++ []).takeWhile (· != '"') = rest :=
    takeWhile_run (fun c hc => bne_iff_ne.2 (ne_of_mem_of_not_mem hc h)) (by simp)
  rw [List.append_nil] at hrest
  rw [next_quote, hrest, if_neg (Nat.lt_irrefl _)]

theorem next_wordChar (h : isWordChar c) : next c rest =
    if Number.isDigit c then
      lexeme .number (numeral (c :: rest)) (some (.number (Number.ofNumeral (numeral (c :: rest)))))
    else mark (.ofWord (.ofList (c :: rest.takeWhile isWordChar)))
      (c :: rest.takeWhile isWordChar) := by
  have hs : single? c = none := by
    unfold single?
    split <;> first | rfl | exact absurd h (by decide)
  have hd : double? c = none := by
    unfold double?
    split <;> first | rfl | exact absurd h (by decide)
  have hne (d : Char) (hd : isWordChar d = false) : c ≠ d := fun e => by
    rw [e, hd] at h
    cases h
  have halpha (hc : Number.isDigit c = false) : isAlpha c := by simpa [isWordChar, hc] using h
  simp only [next, hs, hd, hne '/' rfl, hne '"' rfl, hne ' ' rfl, hne '\r' rfl, hne '\t' rfl,
    hne '\n' rfl, decide_false, Bool.or_false, Bool.false_eq_true, if_false]
  split
  · rfl
  · next hc => rw [if_pos (halpha (by simpa using hc))]

end Segment

/-! ## What is munched is a phrase -/

theorem mem_marks {cs : List Char} : (cs, kind) ∈ marks ↔
    (∃ c, Segment.single? c = some kind ∧ cs = [c]) ∨
    (∃ c alone withEqual, Segment.double? c = some (alone, withEqual) ∧
      (cs = [c] ∧ kind = alone ∨ cs = [c, '='] ∧ kind = withEqual)) ∨
    (cs = ['/'] ∧ kind = .slash) := by
  constructor
  · intro h
    simp only [marks, List.mem_cons, List.not_mem_nil, Prod.mk.injEq, or_false] at h
    rcases h with ⟨rfl, rfl⟩ | ⟨rfl, rfl⟩ | ⟨rfl, rfl⟩ | ⟨rfl, rfl⟩ | ⟨rfl, rfl⟩ | ⟨rfl, rfl⟩ |
      ⟨rfl, rfl⟩ | ⟨rfl, rfl⟩ | ⟨rfl, rfl⟩ | ⟨rfl, rfl⟩ | ⟨rfl, rfl⟩ | ⟨rfl, rfl⟩ | ⟨rfl, rfl⟩ |
      ⟨rfl, rfl⟩ | ⟨rfl, rfl⟩ | ⟨rfl, rfl⟩ | ⟨rfl, rfl⟩ | ⟨rfl, rfl⟩ | ⟨rfl, rfl⟩
    all_goals first
      | exact .inl ⟨_, rfl, rfl⟩
      | exact .inr (.inl ⟨_, _, _, rfl, .inl ⟨rfl, rfl⟩⟩)
      | exact .inr (.inl ⟨_, _, _, rfl, .inr ⟨rfl, rfl⟩⟩)
      | exact .inr (.inr ⟨rfl, rfl⟩)
  · rintro (⟨c, hc, rfl⟩ | ⟨c, alone, withEqual, hc, h⟩ | ⟨rfl, rfl⟩)
    · unfold Segment.single? at hc
      split at hc <;> cases hc <;> simp [marks]
    · unfold Segment.double? at hc
      split at hc <;> cases hc <;> rcases h with ⟨rfl, rfl⟩ | ⟨rfl, rfl⟩ <;> simp [marks]
    · simp [marks]

theorem mem_keywords :
    (word, kind) ∈ keywords ↔ kind ≠ .identifier ∧ TokenKind.ofWord word = kind := by
  constructor
  · intro h
    simp only [keywords, List.mem_cons, List.not_mem_nil, Prod.mk.injEq, or_false] at h
    rcases h with ⟨rfl, rfl⟩ | ⟨rfl, rfl⟩ | ⟨rfl, rfl⟩ | ⟨rfl, rfl⟩ | ⟨rfl, rfl⟩ | ⟨rfl, rfl⟩ |
      ⟨rfl, rfl⟩ | ⟨rfl, rfl⟩ | ⟨rfl, rfl⟩ | ⟨rfl, rfl⟩ | ⟨rfl, rfl⟩ | ⟨rfl, rfl⟩ | ⟨rfl, rfl⟩ |
      ⟨rfl, rfl⟩ | ⟨rfl, rfl⟩ | ⟨rfl, rfl⟩ <;> exact ⟨nofun, rfl⟩
  · rintro ⟨hne, rfl⟩
    unfold TokenKind.ofWord at hne ⊢
    split <;> simp_all [keywords]

namespace Lexeme

theorem word (h : IsWord text) : Lexeme (.ofWord (.ofList text)) text none := by
  by_cases hk : TokenKind.ofWord (.ofList text) = .identifier
  · rw [hk]
    exact .identifier h fun kind hmem => (mem_keywords.1 hmem).1 ((mem_keywords.1 hmem).2 ▸ hk)
  · exact .keyword h (mem_keywords.2 ⟨hk, rfl⟩)

theorem numeral (h : Number.isDigit c) :
    Lexeme .number (Segment.numeral (c :: rest))
      (some (.number (Number.ofNumeral (Segment.numeral (c :: rest))))) := by
  have hwhole : Digits ((c :: rest).takeWhile Number.isDigit) := by
    refine ⟨by simp [h], fun d hd => List.mem_takeWhile_imp hd⟩
  rw [Segment.numeral]
  unfold Segment.fraction
  split
  · next d es _ =>
    split
    · next hd =>
      refine .fraction hwhole ⟨by simp, ?_⟩
      rintro e (_ | ⟨_, he⟩)
      · exact hd
      · exact List.mem_takeWhile_imp he
    · simpa using whole hwhole
  · simpa using whole hwhole

end Lexeme

namespace Segment

theorem phrase_mark {cs : List Char} (h : (cs, kind) ∈ marks) : Phrase (mark kind cs) :=
  .lexeme (.mark h)

theorem phrase_quote (rest : List Char) : Phrase (next '"' rest) ∨
    ('"' ∉ rest ∧ next '"' rest = unclosed ('"' :: rest)) := by
  by_cases hq : '"' ∈ rest
  · obtain ⟨body, tail, rfl, hbody⟩ := List.eq_append_cons_of_mem hq
    rw [next_closed hbody]
    exact .inl (.lexeme (.string hbody))
  · exact .inr ⟨hq, next_unclosed hq⟩

theorem phrase_wordChar (rest : List Char) (h : isWordChar c) : Phrase (next c rest) := by
  rw [next_wordChar h]
  split
  · next hd => exact .lexeme (.numeral hd)
  · next hd =>
    refine .lexeme (.word (.mk ?_ fun d hd => List.mem_takeWhile_imp hd))
    simpa [isWordChar, hd] using h

theorem phrase_slash (rest : List Char) : Phrase (next '/' rest) := by
  rw [next_slash]
  split
  · next hrest =>
    obtain ⟨tail, rfl⟩ := List.head?_eq_some_iff.1 hrest
    rw [List.takeWhile_cons_of_pos (by decide)]
    exact .comment fun h => by simpa using List.mem_takeWhile_imp h
  · exact phrase_mark (by simp [marks])

/-- What is taken off a text is a phrase, unless it begins with a character that begins nothing or
with a quote that is the only one. -/
theorem next_cases (c : Char) (rest : List Char) : Phrase (next c rest) ∨
    (c ≠ '"' ∧ next c rest = stray c) ∨
    (c = '"' ∧ '"' ∉ rest ∧ next c rest = unclosed (c :: rest)) := by
  by_cases hq : c = '"'
  · subst hq
    exact (phrase_quote rest).imp_right fun h => .inr ⟨rfl, h⟩
  by_cases hw : isWordChar c
  · exact .inl (phrase_wordChar rest hw)
  by_cases hs : c = '/'
  · subst hs
    exact .inl (phrase_slash rest)
  simp only [isWordChar, Bool.or_eq_true, not_or] at hw
  unfold next
  split
  · next kind hc => exact .inl (phrase_mark (mem_marks.2 (.inl ⟨c, hc, rfl⟩)))
  split
  · next alone withEqual hc =>
    have hmarks {cs kind} h : (cs, kind) ∈ marks := mem_marks.2 (.inr (.inl ⟨c, _, _, hc, h⟩))
    split
    · exact .inl (phrase_mark (hmarks (.inr ⟨rfl, rfl⟩)))
    · exact .inl (phrase_mark (hmarks (.inl ⟨rfl, rfl⟩)))
  rw [if_neg hs]
  split
  · next hc =>
    refine .inl (.blank ?_)
    simpa [or_assoc, or_comm, or_left_comm] using hc
  · rw [if_neg hw.2, if_neg hw.1]
    exact .inr (.inl ⟨hq, rfl⟩)

/-! ## No phrase is longer -/

/-- The segment `s` is `t`, or a longer phrase. -/
def OrLonger (t s : Segment) : Prop := s = t ∨ Phrase s ∧ t.text.length < s.text.length

theorem OrLonger.of_prefix {ds es : List Char} {f : List Char → Segment}
    (htext : ∀ cs, (f cs).text = cs) (h : ds <+: es) (hes : Phrase (f es)) :
    OrLonger (f ds) (f es) := by
  rcases Nat.lt_or_ge ds.length es.length with hlt | hge
  · exact .inr ⟨hes, by rwa [htext, htext]⟩
  · exact .inl (by rw [h.eq_of_length_le hge])

theorem longest_mark {cs : List Char} (h : (cs, kind) ∈ marks) (hp : cs <+: c :: rest) :
    OrLonger (mark kind cs) (next c rest) := by
  rcases mem_marks.1 h with ⟨d, hd, rfl⟩ | ⟨d, alone, withEqual, hd, ⟨rfl, rfl⟩ | ⟨rfl, rfl⟩⟩ |
    ⟨rfl, rfl⟩
  · obtain ⟨rfl, -⟩ := List.cons_prefix_cons.1 hp
    exact .inl (next_single hd)
  · obtain ⟨rfl, -⟩ := List.cons_prefix_cons.1 hp
    rw [next_double hd]
    split
    · exact .inr ⟨phrase_mark (mem_marks.2 (.inr (.inl ⟨d, _, _, hd, .inr ⟨rfl, rfl⟩⟩))),
        Nat.lt_succ_self 1⟩
    · exact .inl rfl
  · obtain ⟨rfl, tail, rfl⟩ := List.cons_prefix_cons.1 hp
    exact .inl (next_double hd)
  · obtain ⟨rfl, -⟩ := List.cons_prefix_cons.1 hp
    have hphrase := phrase_slash rest
    rw [next_slash] at hphrase ⊢
    by_cases hrest : rest.head? = some '/'
    · rw [if_pos hrest] at hphrase ⊢
      obtain ⟨tail, rfl⟩ := List.head?_eq_some_iff.1 hrest
      exact .inr ⟨hphrase, by simp [mark, text]⟩
    · exact .inl (if_neg hrest)

theorem numeral_whole (hd : Digits ds) (hp : ds <+: cs) : ds <+: numeral cs :=
  (isPrefix_takeWhile hp hd.2).trans (List.prefix_append _ _)

theorem numeral_fraction (hd : Digits ds) (he : Digits es) (hp : ds ++ '.' :: es <+: cs) :
    ds ++ '.' :: es <+: numeral cs := by
  obtain ⟨tail, rfl⟩ := hp
  obtain ⟨e, es, rfl⟩ := List.exists_cons_of_ne_nil he.1
  have hstop : Number.isDigit '.' = false := by decide
  have hes : es <+: (es ++ tail).takeWhile Number.isDigit :=
    isPrefix_takeWhile (List.prefix_append _ _) fun d hd => he.2 d (List.mem_cons_of_mem _ hd)
  rw [List.append_assoc, List.cons_append, List.cons_append, numeral,
    takeWhile_run hd.2 (by simp [hstop]), List.dropWhile_append_of_pos hd.2,
    List.dropWhile_cons_of_neg (by simp [hstop]), fraction, if_pos (he.2 e List.mem_cons_self)]
  simpa using hes

theorem longest_numeral {cs : List Char} (hc : Number.isDigit c)
    (hp : cs <+: numeral (c :: rest)) :
    OrLonger (lexeme .number cs (some (.number (Number.ofNumeral cs)))) (next c rest) := by
  rw [next_wordChar (by simp [isWordChar, hc]), if_pos hc]
  exact OrLonger.of_prefix (f := fun cs => lexeme .number cs (some (.number (Number.ofNumeral cs))))
    (fun _ => rfl) hp (.lexeme (.numeral hc))

theorem not_isDigit_of_isAlpha (h : isAlpha c) : Number.isDigit c = false := by
  simp only [isAlpha, Number.isDigit, Bool.or_eq_true, Bool.and_eq_true, decide_eq_true_eq,
    beq_iff_eq, Bool.and_eq_false_iff, decide_eq_false_iff_not, Char.not_le] at h ⊢
  rcases h with (⟨ha, -⟩ | ⟨ha, -⟩) | rfl
  · exact .inr (lt_of_lt_of_le (by decide) ha)
  · exact .inr (lt_of_lt_of_le (by decide) ha)
  · exact .inr (by decide)

theorem longest_word {cs : List Char} (hw : IsWord cs) (hp : cs <+: c :: rest) :
    OrLonger (mark (.ofWord (.ofList cs)) cs) (next c rest) := by
  obtain @⟨d, ds, hd, hds⟩ := hw
  obtain ⟨rfl, hcs⟩ := List.cons_prefix_cons.1 hp
  have hc : isWordChar d := by simp [isWordChar, hd]
  have hphrase := phrase_wordChar rest hc
  rw [next_wordChar hc, if_neg (by simp [not_isDigit_of_isAlpha hd])] at hphrase ⊢
  exact OrLonger.of_prefix (f := fun cs => mark (.ofWord (.ofList cs)) cs) (fun _ => rfl)
    (List.cons_prefix_cons.2 ⟨rfl, isPrefix_takeWhile hcs hds⟩) hphrase

/-- What is taken off a text is at least as long as any phrase that stands there. -/
theorem longest_next (h : Phrase t) (hp : t.text <+: c :: rest) : OrLonger t (next c rest) := by
  cases h with
  | lexeme h =>
    cases h with
    | mark h => exact longest_mark h hp
    | whole hd =>
      obtain ⟨d, ds, rfl⟩ := List.exists_cons_of_ne_nil hd.1
      obtain ⟨rfl, -⟩ := List.cons_prefix_cons.1 hp
      exact longest_numeral (hd.2 d List.mem_cons_self) (numeral_whole hd hp)
    | fraction hd he =>
      obtain ⟨d, ds, rfl⟩ := List.exists_cons_of_ne_nil hd.1
      obtain ⟨rfl, -⟩ := List.cons_prefix_cons.1 hp
      exact longest_numeral (hd.2 d List.mem_cons_self) (numeral_fraction hd he hp)
    | string hbody =>
      obtain ⟨rfl, tail, rfl⟩ := List.cons_prefix_cons.1 hp
      exact .inl (by simpa using next_closed hbody)
    | keyword hw hk => exact (mem_keywords.1 hk).2 ▸ longest_word hw hp
    | identifier hw hk =>
      refine Eq.subst (motive := fun kind => OrLonger (mark kind _) _) ?_ (longest_word hw hp)
      by_contra hne
      exact hk _ (mem_keywords.2 ⟨hne, rfl⟩)
  | blank h =>
    obtain ⟨rfl, -⟩ := List.cons_prefix_cons.1 hp
    exact .inl (next_blank h)
  | comment h =>
    obtain ⟨rfl, htext⟩ := List.cons_prefix_cons.1 hp
    have hrest : rest.head? = some '/' := by
      obtain ⟨tail, rfl⟩ := htext
      rfl
    have hphrase := phrase_slash rest
    rw [next_slash, if_pos hrest] at hphrase ⊢
    refine OrLonger.of_prefix (f := comment) (fun _ => rfl)
      (List.cons_prefix_cons.2 ⟨rfl, isPrefix_takeWhile htext ?_⟩) hphrase
    rintro d (_ | ⟨_, hd⟩)
    · decide
    · exact bne_iff_ne.2 (ne_of_mem_of_not_mem hd h)

theorem not_phrase_stray : ¬ Phrase (stray c) := nofun

theorem not_phrase_unclosed {cs : List Char} : ¬ Phrase (unclosed cs) := nofun

theorem text_ne_nil_of_phrase (h : Phrase s) : s.text ≠ [] := by
  intro hs
  cases h with
  | lexeme h =>
    cases h with
    | mark h => cases hs; simp [marks] at h
    | whole h => exact h.1 hs
    | fraction => simp [text] at hs
    | string => cases hs
    | keyword h | identifier h => cases h; cases hs
  | blank | comment => cases hs

/-- What is taken off a text is munched off it. -/
theorem munched_next (h : c :: rest = (next c rest).text ++ tail) : (next c rest).Munched tail := by
  rcases next_cases c rest with hp | ⟨hc, hs⟩ | ⟨rfl, hq, hs⟩
  · refine .longest hp fun t ht htext => ?_
    rw [← h] at htext
    rcases longest_next ht htext with heq | ⟨-, hlt⟩
    · exact heq ▸ List.prefix_rfl
    · exact List.prefix_of_prefix_length_le htext (text_next_isPrefix c rest) hlt.le
  · rw [hs] at h ⊢
    obtain rfl : rest = tail := (List.cons.inj h).2
    refine .stray hc fun t ht htext => ?_
    rcases longest_next ht htext with heq | ⟨hphrase, -⟩
    · exact not_phrase_stray (hs ▸ heq ▸ ht)
    · exact not_phrase_stray (hs ▸ hphrase)
  · rw [hs] at h ⊢
    obtain rfl : tail = [] := by simpa [text] using h
    exact .unclosed hq

/-- Nothing else is munched off a text than what is taken off it. -/
theorem Munched.eq_next {s : Segment} (h : s.Munched tail) (hs : s.text ++ tail = c :: rest) :
    s = next c rest := by
  have hprefix : (next c rest).text <+: s.text ++ tail := hs ▸ text_next_isPrefix c rest
  cases h with
  | longest hp hmax =>
    rcases longest_next hp (hs ▸ List.prefix_append _ _) with heq | ⟨hphrase, hlt⟩
    · exact heq.symm
    · exact absurd (hmax _ hphrase hprefix).length_le (Nat.not_le.2 hlt)
  | stray hc hnone =>
    obtain ⟨rfl, htail⟩ := List.cons.inj hs
    obtain rfl : tail = rest := htail
    rcases next_cases _ tail with hp | ⟨-, hs⟩ | ⟨hquote, -⟩
    · exact absurd hprefix (hnone _ hp)
    · exact hs.symm
    · exact absurd hquote hc
  | unclosed hq =>
    obtain ⟨rfl, hbody⟩ := List.cons.inj hs
    obtain rfl : _ = rest := (List.append_nil _).symm.trans hbody
    exact (next_unclosed hq).symm

theorem Munched.text_ne_nil {s : Segment} (h : s.Munched tail) : s.text ≠ [] := by
  cases h with
  | longest hp => exact text_ne_nil_of_phrase hp
  | stray | unclosed => nofun

theorem Munched.eq_nil_of_unclosed {cs : List Char} (h : (Segment.unclosed cs).Munched tail) :
    tail = [] := by
  cases h with
  | longest hp => exact absurd hp not_phrase_unclosed
  | unclosed => rfl

end Segment

/-! ## The segments of a source -/

namespace Decomposes

theorem tail (h : Decomposes source (s :: ss)) :
    Decomposes (ss.map Segment.text).flatten ss where
  flatten := rfl
  munched := by
    rintro before t after rfl
    exact h.munched (s :: before) t after rfl

theorem head (h : Decomposes source (s :: ss)) : s.Munched (ss.map Segment.text).flatten :=
  h.munched [] s ss rfl

theorem cons (hs : s.Munched rest) (h : Decomposes rest ss) :
    Decomposes (s.text ++ rest) (s :: ss) := by
  obtain rfl := h.flatten
  refine ⟨rfl, ?_⟩
  rintro before t after heq
  rcases List.cons_eq_append_iff.1 heq with ⟨rfl, heq⟩ | ⟨before, rfl, rfl⟩
  · obtain ⟨rfl, rfl⟩ := List.cons.inj heq
    exact hs
  · exact h.munched before t after rfl

/-- A source has one decomposition only, whatever it is. -/
theorem unique (h : Decomposes source ss) (h' : Decomposes source ts) : ss = ts := by
  induction ss generalizing source ts with
  | nil =>
    cases ts with
    | nil => rfl
    | cons t ts =>
      have hnil : t.text ++ (ts.map Segment.text).flatten = [] := h'.flatten.trans h.flatten.symm
      exact absurd (List.append_eq_nil_iff.1 hnil).1 h'.head.text_ne_nil
  | cons s ss ih =>
    cases source with
    | nil => exact absurd (List.append_eq_nil_iff.1 h.flatten).1 h.head.text_ne_nil
    | cons c rest =>
      cases ts with
      | nil => cases h'.flatten
      | cons t ts =>
        obtain rfl : s = t :=
          (h.head.eq_next h.flatten).trans (h'.head.eq_next h'.flatten).symm
        have hrest : (ss.map Segment.text).flatten = (ts.map Segment.text).flatten :=
          List.append_cancel_left (h.flatten.trans h'.flatten.symm)
        rw [ih h.tail (hrest ▸ h'.tail)]

end Decomposes

theorem decomposes_segments (source : List Char) : Decomposes source (segments source) := by
  induction hn : source.length using Nat.strongRecOn generalizing source with
  | ind n ih =>
    cases source with
    | nil => exact ⟨rfl, by simp⟩
    | cons c rest =>
      obtain ⟨tail, htext⟩ := Segment.text_next_isPrefix c rest
      have hdrop : (c :: rest).drop (Segment.next c rest).text.length = tail := by
        rw [← htext, List.drop_left]
      have hlt : tail.length < n := by
        have hpos := List.length_pos_iff.2 (Segment.text_next_ne_nil c rest)
        have hlen := congrArg List.length htext
        rw [List.length_append] at hlen
        omega
      have htail := Decomposes.cons (Segment.munched_next htext.symm) (ih _ hlt tail rfl)
      rwa [htext, ← hdrop, ← segments_cons] at htail

/-! ## Tokens and reports -/

theorem scanned_ofSegments {ss : List Segment} (p : Place) (h : Decomposes source ss) :
    Scanned p ss
      ((p.ofSegments ss).filterMap (fun (p, s) => s.token? p) ++
        [⟨.eof, "", none, (p.after source).line, (p.after source).column⟩])
      ((p.ofSegments ss).filterMap fun (p, s) => s.report? p) := by
  induction ss generalizing source p with
  | nil =>
    obtain rfl := h.flatten
    exact .done
  | cons s ss ih =>
    have htail := ih (p.after s.text) h.tail
    rw [← Place.after_append, show s.text ++ _ = source from h.flatten] at htail
    rw [Place.ofSegments_cons]
    cases s with
    | lexeme kind text literal => exact .lexeme htail
    | blank c => exact .blank htail
    | comment text => exact .comment htail
    | stray c => exact .stray htail
    | unclosed text =>
      cases ss with
      | nil => exact .unclosed htail
      | cons t ss =>
        have hnil : t.text ++ (ss.map Segment.text).flatten = [] := h.head.eq_nil_of_unclosed
        exact absurd (List.append_eq_nil_iff.1 hnil).1 h.tail.head.text_ne_nil

theorem Lexeme.kind_ne_eof (h : Lexeme kind text literal) : kind ≠ .eof := by
  cases h with
  | mark h => exact (by decide : ∀ m ∈ marks, m.2 ≠ .eof) _ h
  | keyword _ h => exact (by decide : ∀ k ∈ keywords, k.2 ≠ .eof) _ h
  | whole | fraction | string | identifier => nofun

theorem Decomposes.kind_ne_eof (h : Decomposes source ss) (hs : .lexeme kind text literal ∈ ss) :
    kind ≠ .eof := by
  obtain ⟨before, after, rfl⟩ := List.append_of_mem hs
  cases h.munched before _ after rfl with
  | longest hp =>
    cases hp with
    | lexeme h => exact h.kind_ne_eof

/-- The token of the end is the last one, and the only one of its kind. -/
theorem scan_ends (source : List Char) :
    ∃ ts, (scan source).tokens = ts ++ [Token.endOf source] ∧ ∀ t ∈ ts, t.kind ≠ .eof := by
  refine ⟨_, rfl, fun t ht => ?_⟩
  obtain ⟨⟨p, s⟩, hs, ht⟩ := List.mem_filterMap.1 ht
  cases s with
  | lexeme kind text literal =>
    obtain rfl := Option.some.inj ht
    exact (decomposes_segments source).kind_ne_eof (Place.mem_ofSegments hs)
  | _ => cases ht

/-- Scanning is the maximal-munch decomposition of the source: its tokens and reports are those of
the only segments that make it up and are each the longest at their place, and the token of the end
is the only one of its kind. -/
theorem scan_maximal_munch (source : List Char) :
    ∃ ss, Decomposes source ss ∧ (∀ ts, Decomposes source ts → ts = ss) ∧
      Scanned .start ss (scan source).tokens (scan source).reports ∧
      ∃ ts, (scan source).tokens = ts ++ [Token.endOf source] ∧ ∀ t ∈ ts, t.kind ≠ .eof := by
  have hss := decomposes_segments source
  exact ⟨segments source, hss, fun ts hts => hts.unique hss, scanned_ofSegments .start hss,
    scan_ends source⟩

end LoxLang
