import LoxLang.Proofs.DepthLimits
import LoxLang.Proofs.Lexemes
import LoxLang.Prompt.Line
import Mathlib.Data.List.Induction

/-!
# Inputs that are meant as expressions

An input is judged by the last character of its text, the grammar by its tokens. What is derived as
a program ends in a semicolon or a closing brace, and what is derived as an expression holds neither
(`Derives.not_mem_closers`), so the two agree as long as the last character belongs to a token
(`judged_rightly_iff`). A comment behind the last token has the last character instead.
-/

namespace LoxLang

namespace Grammar

/-! ## The last token -/

/-- The kinds that a declaration can end with. -/
def closers : List TokenKind := [.semicolon, .rightBrace]

/-- The tokens end with one of the kinds. -/
def Ends (kinds : List TokenKind) (ts : List Token) : Prop :=
  ∃ us t, ts = us ++ [t] ∧ t.kind ∈ kinds

theorem Ends.append (h : Ends kinds ts) (us : List Token) : Ends kinds (us ++ ts) := by
  obtain ⟨vs, t, rfl, ht⟩ := h
  exact ⟨us ++ vs, t, (List.append_assoc ..).symm, ht⟩

theorem Ends.cons (h : Ends kinds ts) (t : Token) : Ends kinds (t :: ts) := h.append [t]

theorem Ends.one (h : t.kind ∈ kinds) : Ends kinds [t] := ⟨[], t, rfl, h⟩

/-- Statements and declarations, which end where their last token says so. -/
def Nonterminal.closes : Nonterminal → Bool
  | declaration _ | function _ | varDecl _ | statement _ _ | expressionStatement _ => true
  | _ => false

theorem Derives.ends (h : Derives n x ts) (hx : x.closes) : Ends closers ts := by
  have hsemicolon {t : Token} (ht : t.kind = .semicolon) : Ends closers [t] :=
    .one (by simp [ht, closers])
  have hbrace {t : Token} (ht : t.kind = .rightBrace) : Ends closers [t] :=
    .one (by simp [ht, closers])
  induction h with
  | program | noInitializer | declared | evaluated | absent | present | assign | set | expression
  | operand | operator | unary | called | primary | call | get | constant | this | named | grouping
  | super => cases hx
  | classDecl _ _ _ _ _ hr =>
    exact ((((hbrace hr).append _).cons _).append _).cons _ |>.cons _
  | funDecl _ _ ih | varDeclaration _ _ ih => exact (ih rfl).cons _
  | statement _ ih | plain _ ih => exact ih rfl
  | function _ _ _ _ _ _ _ _ hr =>
    exact ((((hbrace hr).append _).cons _).cons _ |>.append _).cons _ |>.cons _
  | varDecl _ hs => exact (hsemicolon hs).cons _
  | varInitializer _ _ _ hs => exact ((hsemicolon hs).append _).cons _ |>.cons _
  | forLoop _ _ _ _ _ _ _ _ _ _ _ ih =>
    exact ((((ih rfl).cons _).append _).cons _ |>.append _ |>.append _).cons _ |>.cons _
  | ifThen _ _ _ _ _ _ ih => exact (((ih rfl).cons _).append _).cons _ |>.cons _
  | ifElse _ _ _ _ _ _ _ _ _ ih =>
    exact ((((ih rfl).cons _).append _).cons _ |>.append _).cons _ |>.cons _
  | print _ _ hs | returning _ _ hs => exact ((hsemicolon hs).append _).cons _
  | whileLoop _ _ _ _ _ _ ih => exact (((ih rfl).cons _).append _).cons _ |>.cons _
  | block _ _ hr => exact ((hbrace hr).append _).cons _
  | expressionStatement _ hs => exact (hsemicolon hs).append _

/-- The last token of a program, if it has one. -/
theorem Derives.program_ends (h : Derives n (.program ss) ts) :
    ∀ t ∈ ts.getLast?, t.kind ∈ closers := by
  cases h with
  | @program _ ds hds =>
    intro t ht
    induction ds using List.reverseRecOn with
    | nil => cases ht
    | append_singleton ds d _ =>
      obtain ⟨us, u, hd, hu⟩ := (hds d (by simp)).ends rfl
      have hlast : Row.tokens (ds ++ [d]) = Row.tokens ds ++ us ++ [u] := by
        simp [Row.tokens, hd]
      rw [hlast, List.getLast?_concat, Option.mem_some] at ht
      exact ht ▸ hu

/-- The nonterminals of expressions. -/
def Nonterminal.isExpression : Nonterminal → Bool
  | expression _ | level _ _ | unary _ | call _ | primary _ => true
  | _ => false

theorem Nonterminal.isExpression_operand (l : Level) (e : Expr) :
    (l.operand e).isExpression = true := by
  cases l <;> rfl

/-- There are no statements in an expression. -/
theorem Derives.not_mem_closers (h : Derives n x ts) (hx : x.isExpression) :
    ∀ t ∈ ts, t.kind ∉ closers := by
  induction h with
  | program | classDecl | funDecl | varDeclaration | statement | function | varDecl | varInitializer
  | plain | forLoop | ifThen | ifElse | print | returning | whileLoop | block | expressionStatement
  | noInitializer | declared | evaluated | absent | present => cases hx
  | expression _ ih | called _ ih | primary _ ih => exact ih rfl
  | operand _ ih => exact ih (Nonterminal.isExpression_operand ..)
  | @operator _ l _ _ _ _ _ _ hop _ hleft hright =>
    have hop := (by cases l <;> decide : ∀ k ∈ l.operators, k ∉ closers) _ hop
    have hright := hright (Nonterminal.isExpression_operand ..)
    exact List.forall_mem_append.2 ⟨hleft rfl, List.forall_mem_cons.2 ⟨hop, hright⟩⟩
  | unary hop _ ih =>
    have hop := (by decide : ∀ k ∈ [TokenKind.bang, .minus], k ∉ closers) _ hop
    exact List.forall_mem_cons.2 ⟨hop, ih rfl⟩
  | call _ hl _ hc _ hr hf has =>
    have harguments := hc.forall_tokens (P := (·.kind ∉ closers))
      (fun t ht => by simp [ht, closers]) fun a ha => has a ha rfl
    have hcallee := hf rfl
    simp_all [closers, or_imp]
  | constant h =>
    cases h with
    | literal h => rcases h with h | h <;> simp [h, closers]
    | _ => simp_all [closers]
  | _ => simp_all [closers, or_imp, Nonterminal.isExpression]

theorem Derives.ne_nil (h : Derives n x ts) (hx : x.isExpression) : ts ≠ [] := by
  induction h with
  | program | classDecl | funDecl | varDeclaration | statement | function | varDecl | varInitializer
  | plain | forLoop | ifThen | ifElse | print | returning | whileLoop | block | expressionStatement
  | noInitializer | declared | evaluated | absent | present => cases hx
  | expression _ ih | called _ ih | primary _ ih => exact ih rfl
  | operand _ ih => exact ih (Nonterminal.isExpression_operand ..)
  | _ => simp

end Grammar

/-! ## The last character -/

namespace Text

/-- The last character of a text that is no blank. -/
def lastVisible? (cs : List Char) : Option Char := (trim cs).getLast?

theorem lastVisible?_eq (cs : List Char) : lastVisible? cs = cs.reverse.find? (!isBlank ·) := by
  have htrimEnd (ds : List Char) : (trimEnd ds).getLast? = ds.reverse.find? (!isBlank ·) := by
    rw [trimEnd, List.getLast?_reverse, List.find?_eq_head?_dropWhile_not]
    simp
  have hfront : (cs.takeWhile isBlank).reverse.find? (!isBlank ·) = none := by
    rw [List.find?_eq_none]
    intro c hc
    simpa using List.mem_takeWhile_imp (List.mem_reverse.1 hc)
  rw [lastVisible?, trim, htrimEnd]
  conv => rhs; rw [← List.takeWhile_append_dropWhile (p := isBlank) (l := cs)]
  rw [List.reverse_append, List.find?_append, hfront, Option.or_none]

theorem lastVisible?_append (cs ds : List Char) :
    lastVisible? (cs ++ ds) = (lastVisible? ds).or (lastVisible? cs) := by
  rw [lastVisible?_eq, lastVisible?_eq, lastVisible?_eq, List.reverse_append, List.find?_append]

theorem lastVisible?_concat (cs : List Char) (h : isBlank c = false) :
    lastVisible? (cs ++ [c]) = some c := by
  rw [lastVisible?_append, lastVisible?_eq [c]]
  simp [h]

theorem lastVisible?_blanks {cs : List Char} (h : ∀ c ∈ cs, isBlank c) :
    lastVisible? cs = none := by
  rw [lastVisible?_eq, List.find?_eq_none]
  intro c hc
  simpa using h c (List.mem_reverse.1 hc)

end Text

theorem Line.isExpression_eq (input : List Char) :
    isExpression input = (Text.lastVisible? input).any fun c => c != ';' && c != '}' := by
  unfold isExpression Text.lastVisible?
  cases (Text.trim input).getLast? <;> rfl

/-! ## The last segment -/

namespace Segment

def isBlank : Segment → Bool
  | blank _ => true
  | _ => false

/-- The last segment that is no blank. -/
def last? (segs : List Segment) : Option Segment := (segs.filter (!·.isBlank)).getLast?

theorem last?_concat (segs : List Segment) (s : Segment) :
    last? (segs ++ [s]) = if s.isBlank then last? segs else some s := by
  cases hs : s.isBlank <;> simp [last?, List.filter_append, hs]

/-- A segment is visible by its last character, unless it is a blank. -/
structure Shows (s : Segment) : Prop where
  blank : s.isBlank → ∀ c ∈ s.text, Text.isBlank c
  solid : s.isBlank = false → (Text.lastVisible? s.text).isSome

/-- What is seen last of segments is seen of the last one. -/
theorem lastVisible?_flatten {segs : List Segment} (h : ∀ s ∈ segs, s.Shows) :
    Text.lastVisible? (segs.map text).flatten = (last? segs).bind (Text.lastVisible? ·.text) := by
  induction segs using List.reverseRecOn with
  | nil => rfl
  | append_singleton segs s ih =>
    have hs := h s (by simp)
    rw [List.map_append, List.flatten_append, Text.lastVisible?_append,
      ih fun t ht => h t (List.mem_append_left _ ht), last?_concat]
    cases hblank : s.isBlank with
    | true => simp [Text.lastVisible?_blanks (hs.blank hblank)]
    | false =>
      obtain ⟨c, hc⟩ := Option.isSome_iff_exists.1 (hs.solid hblank)
      simp [hc]

end Segment

/-- The last character of a lexeme is seen, and tells whether the lexeme can end a declaration. -/
theorem Lexeme.lastVisible? (h : Lexeme kind text literal) :
    ∃ c, Text.lastVisible? text = some c ∧ (c ∈ [';', '}'] ↔ kind ∈ Grammar.closers) := by
  obtain ⟨front, c, rfl, hlast⟩ := h.exists_last
  refine ⟨c, Text.lastVisible?_concat front hlast.visible, ?_⟩
  simp [Grammar.closers, hlast.semicolon, hlast.brace]

/-! ## Readings of an input -/

namespace Segment

/-- The last segment is the last lexeme, if it is one. -/
theorem getLast?_content {segs : List Segment} {cs : List Char}
    (h : last? segs = some (.lexeme kind cs literal)) :
    (segs.filterMap content?).getLast? = some (kind, String.ofList cs, literal) := by
  induction segs using List.reverseRecOn with
  | nil => cases h
  | append_singleton segs s ih =>
    rw [last?_concat] at h
    rw [List.filterMap_append]
    split at h
    · next hs =>
      cases s <;> cases hs
      simpa [content?] using ih h
    · cases h
      simp [content?]

theorem isBlank_of_last? {segs : List Segment} (h : last? segs = none) :
    ∀ s ∈ segs, s.isBlank := by
  simpa [last?, List.filter_eq_nil_iff] using h

theorem last?_mem {segs : List Segment} (h : last? segs = some s) :
    s ∈ segs ∧ s.isBlank = false := by
  simpa using List.mem_of_getLast? h

end Segment

theorem Phrase.shows (h : Phrase s) : s.Shows := by
  constructor
  · intro hblank
    cases h with
    | blank hc =>
      have hall : [' ', '\t', '\r', '\n'].all Text.isBlank := by decide
      simpa [Segment.text] using List.all_eq_true.1 hall _ hc
    | lexeme | comment => cases hblank
  · intro hsolid
    cases h with
    | lexeme h =>
      obtain ⟨c, hc, -⟩ := h.lastVisible?
      simp [Segment.text, hc]
    | blank => cases hsolid
    | comment =>
      rw [Text.lastVisible?_eq, List.find?_isSome]
      exact ⟨'/', by simp [Segment.text], by decide⟩

/-- Without reports there are phrases only. -/
theorem phrase_of_mem_segments (h : (scan source).reports = []) (hs : s ∈ segments source) :
    Phrase s := by
  obtain ⟨p, hp⟩ : ∃ p, (p, s) ∈ Place.start.ofSegments (segments source) := by
    rw [← Place.map_snd_ofSegments .start (segments source)] at hs
    obtain ⟨⟨p, s⟩, hp, rfl⟩ := List.mem_map.1 hs
    exact ⟨p, hp⟩
  have hnone : s.report? p = none := List.filterMap_eq_nil_iff.1 h _ hp
  obtain ⟨before, after, heq⟩ := List.append_of_mem hs
  have hmunched := (decomposes_segments source).munched before s after heq
  generalize (after.map Segment.text).flatten = rest at hmunched
  cases hmunched with
  | longest hphrase => exact hphrase
  | stray | unclosed => cases hnone

/-- A text that is scanned and read as an expression, both without a report. -/
def ReadsAsExpression (room : Nat) (source : List Char) : Prop :=
  (scan source).reports = [] ∧
    ∃ e, Grammar.readExpression room (scan source).tokens = .finished (some e) []

/-- A text that is scanned and read as a program, both without a report. -/
def ReadsAsProgram (room : Nat) (source : List Char) : Prop :=
  (scan source).reports = [] ∧
    ∃ ss, Grammar.readProgram room (scan source).tokens = .finished ss []

/-- The judgement of an input agrees with the grammar. -/
structure JudgedRightly (room : Nat) (source : List Char) : Prop where
  expression : ReadsAsExpression room source → Line.isExpression source = true
  program : ReadsAsProgram room source → Line.isExpression source = false

theorem ReadsAsExpression.derives (h : ReadsAsExpression room source) :
    ∃ e, Grammar.Derives room (.expression e) (words source) := by
  obtain ⟨-, e, he⟩ := h
  rw [tokens_scan] at he
  exact ⟨e, Grammar.derives_of_readExpression (fun _ => kind_ne_eof_of_mem_words) rfl he⟩

theorem ReadsAsProgram.derives (h : ReadsAsProgram room source) :
    ∃ ss, Grammar.Derives room (.program ss) (words source) := by
  obtain ⟨-, ss, hss⟩ := h
  rw [tokens_scan] at hss
  exact ⟨ss, Grammar.derives_of_readProgram (fun _ => kind_ne_eof_of_mem_words) rfl hss⟩

theorem lastVisible?_of_scan (h : (scan source).reports = []) :
    Text.lastVisible? source =
      (Segment.last? (segments source)).bind (Text.lastVisible? ·.text) := by
  rw [← Segment.lastVisible?_flatten fun s hs => (phrase_of_mem_segments h hs).shows,
    flatten_segments]

/-- The last token has the last character, unless a comment has it or there is none. -/
inductive LastCharacter (source : List Char) : Option Char → Prop
  | nothing : words source = [] → LastCharacter source none
  | token : (words source).getLast? = some t → (c ∈ [';', '}'] ↔ t.kind ∈ Grammar.closers) →
    LastCharacter source (some c)
  | comment : Segment.last? (segments source) = some (.comment text) →
    Text.lastVisible? text = some c → LastCharacter source (some c)

theorem lastCharacter (h : (scan source).reports = []) :
    LastCharacter source (Text.lastVisible? source) := by
  have hcontent := content_words source
  rw [lastVisible?_of_scan h]
  cases hlast : Segment.last? (segments source) with
  | none =>
    refine .nothing (List.map_eq_nil_iff.1 (hcontent.trans (List.filterMap_eq_nil_iff.2 ?_)))
    intro s hs
    have hblank := Segment.isBlank_of_last? hlast s hs
    cases s <;> first | rfl | cases hblank
  | some s =>
    obtain ⟨hmem, hblank⟩ := Segment.last?_mem hlast
    cases phrase_of_mem_segments h hmem with
    | lexeme hlexeme =>
      obtain ⟨c, hc, hiff⟩ := hlexeme.lastVisible?
      have htoken := Segment.getLast?_content hlast
      rw [← hcontent, List.getLast?_map, Option.map_eq_some_iff] at htoken
      obtain ⟨t, ht, heq⟩ := htoken
      obtain rfl : t.kind = _ := congrArg Prod.fst heq
      rw [Option.bind_some, Segment.text, hc]
      exact .token ht hiff
    | blank => cases hblank
    | @comment text htext =>
      have hshows := (Phrase.comment htext).shows.solid rfl
      obtain ⟨c, hc⟩ := Option.isSome_iff_exists.1 hshows
      rw [Option.bind_some, hc]
      exact .comment hlast hc

/-- An input is judged as the grammar reads it, unless the last character of its text, blanks aside,
is the last one of a comment and happens to say otherwise. Blanks at the end change nothing. -/
theorem judged_rightly_iff (room : Nat) (source : List Char) :
    (JudgedRightly room source ↔
      ∀ text, Segment.last? (segments source) = some (.comment text) →
        ∀ c ∈ Text.lastVisible? text,
          (ReadsAsExpression room source → c ∉ [';', '}']) ∧
          (ReadsAsProgram room source → c ∈ [';', '}'])) ∧
      ∀ tail, (∀ c ∈ tail, Text.isBlank c) →
        Line.isExpression (source ++ tail) = Line.isExpression source := by
  have hjudged {c : Char} : (c != ';' && c != '}') = true ↔ c ∉ [';', '}'] := by simp
  refine ⟨⟨fun h text htext c hc => ?_, fun h => ?_⟩, fun tail htail => ?_⟩
  · have hvisible (hscan : (scan source).reports = []) : Text.lastVisible? source = some c := by
      rw [lastVisible?_of_scan hscan, htext]
      exact hc
    constructor
    · intro hexpression
      have hright := h.expression hexpression
      rw [Line.isExpression_eq, hvisible hexpression.1] at hright
      exact hjudged.1 hright
    · intro hprogram
      have hright := h.program hprogram
      rw [Line.isExpression_eq, hvisible hprogram.1] at hright
      by_contra hc
      exact absurd (hjudged.2 hc) (Bool.not_eq_true _ ▸ hright)
  · constructor
    · intro hexpression
      obtain ⟨e, he⟩ := hexpression.derives
      rw [Line.isExpression_eq]
      have hlast := lastCharacter hexpression.1
      generalize Text.lastVisible? source = last at hlast
      cases hlast with
      | nothing hnil => exact absurd hnil (he.ne_nil rfl)
      | token ht hiff =>
        exact hjudged.2 (hiff.not.2 (he.not_mem_closers rfl _ (List.mem_of_getLast? ht)))
      | comment htext hc => exact hjudged.2 ((h _ htext _ hc).1 hexpression)
    · intro hprogram
      obtain ⟨ss, hss⟩ := hprogram.derives
      rw [Line.isExpression_eq]
      have hlast := lastCharacter hprogram.1
      generalize Text.lastVisible? source = last at hlast
      have hstop {c : Char} (hc : c ∈ [';', '}']) : (c != ';' && c != '}') = false :=
        Bool.eq_false_iff.2 fun h => hjudged.1 h hc
      cases hlast with
      | nothing => rfl
      | token ht hiff => exact hstop (hiff.2 (hss.program_ends _ ht))
      | comment htext hc => exact hstop ((h _ htext _ hc).2 hprogram)
  · rw [Line.isExpression_eq, Line.isExpression_eq, Text.lastVisible?_append,
      Text.lastVisible?_blanks htail, Option.none_or]

/-- A comment that ends in a letter hides the semicolon in front of it, and one that ends in a
semicolon stands for one. -/
theorem not_judged_rightly_behind_comment :
    ¬ JudgedRightly 40 "print 1; // done".toList ∧ ¬ JudgedRightly 40 "1 // one;".toList := by
  constructor
  · intro h
    obtain ⟨ss, hss⟩ : ∃ ss, (Grammar.readProgram 40
        (scan "print 1; // done".toList).tokens).value? = some ss :=
      ⟨_, (Option.some_get (by decide +kernel)).symm⟩
    have hread := Grammar.Reading.finished_of_value? hss (by decide +kernel)
    have hright := h.program ⟨by decide +kernel, _, hread⟩
    exact absurd hright (by decide +kernel)
  · intro h
    obtain ⟨e, he⟩ : ∃ e, (Grammar.readExpression 40
        (scan "1 // one;".toList).tokens).value? = some (some e) := by
      have hsome : (Grammar.readExpression 40
          (scan "1 // one;".toList).tokens).value?.join.isSome := by decide +kernel
      obtain ⟨e, he⟩ := Option.isSome_iff_exists.1 hsome
      exact ⟨e, Option.join_eq_some_iff.1 he⟩
    have hread := Grammar.Reading.finished_of_value? he (by decide +kernel)
    have hright := h.expression ⟨by decide +kernel, _, hread⟩
    exact absurd hright (by decide +kernel)

end LoxLang
