import LoxLang.Proofs.Parsing.Contents

/-!
# Layout does not matter

The lexemes of a source may be written down again with any blanks and comments between them
(`LaidOut`), as long as a blank comes first, and the tokens have the same contents in the same order
(`scan_laidOut`). A lexeme in front of a blank ends there: nothing that begins with it and goes on
with a blank is a lexeme or a comment, and a string has its quotes already.
-/

namespace LoxLang

/-! ## Layouts -/

/-- Blanks and comments, each comment with its newline. -/
inductive Spacing : List Char → Prop where
  | nil : Spacing []
  | blank : c ∈ [' ', '\t', '\r', '\n'] → Spacing cs → Spacing (c :: cs)
  | comment : '\n' ∉ text → Spacing cs → Spacing ('/' :: '/' :: (text ++ '\n' :: cs))

/-- What may stand between two lexemes. -/
inductive Separator : List Char → Prop where
  | mk : c ∈ [' ', '\t', '\r', '\n'] → Spacing cs → Separator (c :: cs)

/-- Lexemes written one behind the other with a separator between each two of them. -/
inductive LaidOut : List (List Char) → List Char → Prop where
  | nil : LaidOut [] []
  | one : LaidOut [text] text
  | cons : Separator sep → LaidOut (next :: more) cs →
    LaidOut (text :: next :: more) (text ++ (sep ++ cs))

/-! ## Where a lexeme ends -/

namespace Lexeme

theorem ne_nil (h : Lexeme kind text literal) : text ≠ [] :=
  Segment.text_ne_nil_of_phrase (.lexeme h)

/-- Only a slash by itself begins with one. -/
theorem eq_slash (h : Lexeme kind ('/' :: cs) literal) : cs = [] := by
  have hword (hall : ∀ c ∈ '/' :: cs, Segment.isWordChar c) : cs = [] :=
    absurd (hall '/' List.mem_cons_self) (by decide)
  generalize htext : '/' :: cs = text at h
  cases h with
  | mark hm =>
    have hmarks : ∀ m ∈ marks, m.1.head? = some '/' → m.1.tail = [] := by decide
    subst htext
    exact hmarks _ hm rfl
  | whole hd => exact hword (htext ▸ isWordChar_digits hd)
  | @fraction ds _ hd =>
    obtain ⟨d, ds, rfl⟩ := List.exists_cons_of_ne_nil hd.1
    obtain ⟨rfl, -⟩ := List.cons.inj htext
    exact absurd (hd.2 '/' List.mem_cons_self) (by decide)
  | string => cases htext
  | keyword hw | identifier hw => exact hword (htext ▸ isWordChar_word hw)

/-- Outside of a string a lexeme has no blanks. -/
theorem blank_not_mem (h : Lexeme kind text literal) (hc : c ∈ [' ', '\t', '\r', '\n'])
    (hq : '"' ∉ text) : c ∉ text := by
  have hword : Segment.isWordChar c = false := by
    simp only [List.mem_cons, List.not_mem_nil, or_false] at hc
    rcases hc with rfl | rfl | rfl | rfl <;> rfl
  have hrun {cs : List Char} (hall : ∀ d ∈ cs, Segment.isWordChar d) : c ∉ cs :=
    fun hmem => by simp [hall c hmem] at hword
  cases h with
  | mark hm =>
    have hmarks : ∀ m ∈ marks, m.1.all (· ∉ [' ', '\t', '\r', '\n']) := by decide
    exact fun hmem => of_decide_eq_true (List.all_eq_true.1 (hmarks _ hm) c hmem) hc
  | whole hd => exact hrun (isWordChar_digits hd)
  | fraction hd he =>
    have hpoint : c ≠ '.' := ne_of_mem_of_not_mem hc (by decide)
    simp [hrun (isWordChar_digits hd), hrun (isWordChar_digits he), hpoint]
  | string => simp at hq
  | keyword hw | identifier hw => exact hrun (isWordChar_word hw)

/-- Nothing that begins with a lexeme and a blank behind it is one phrase. -/
theorem not_prefix_of_blank (h : Lexeme kind text literal) (hc : c ∈ [' ', '\t', '\r', '\n'])
    (ht : Phrase t) : ¬ text ++ [c] <+: t.text := by
  intro hp
  have hmem : c ∈ t.text := hp.subset (by simp)
  cases ht with
  | @lexeme kind' text' literal' hl =>
    by_cases hq : '"' ∈ text'
    · -- The longer string would have the closing quote of the shorter one inside.
      obtain ⟨body, hbody, rfl⟩ := hl.eq_string hq
      have hfront : text.head? = some '"' := by
        obtain ⟨d, ds, rfl⟩ := List.exists_cons_of_ne_nil h.ne_nil
        rw [(List.cons_prefix_cons.1 hp).1]
        rfl
      obtain ⟨body', -, rfl⟩ := h.eq_string (List.mem_of_mem_head? hfront)
      have hp : body' ++ ['"', c] <+: body ++ ['"'] := by
        simpa [Segment.text] using hp
      have hquote : body' ++ ['"'] <+: body ++ ['"'] := .trans (by simp) hp
      have hinside : body' ++ ['"'] <+: body := by
        refine List.prefix_of_prefix_length_le hquote (List.prefix_append _ _) ?_
        have := hp.length_le
        simp at this ⊢
        omega
      exact hbody (hinside.subset (by simp))
    · exact hl.blank_not_mem hc hq hmem
  | blank =>
    have hlen : (text ++ [c]).length ≤ 1 := hp.length_le
    have := List.length_pos_iff.2 h.ne_nil
    rw [List.length_append, List.length_singleton] at hlen
    omega
  | comment =>
    obtain ⟨d, ds, rfl⟩ := List.exists_cons_of_ne_nil h.ne_nil
    obtain ⟨rfl, hp⟩ := List.cons_prefix_cons.1 hp
    obtain rfl := h.eq_slash
    cases (List.cons_prefix_cons.1 (List.cons_prefix_cons.1 hp).2).1
    exact absurd hc (by decide)

/-- A lexeme in front of a blank or of the end is taken off by itself. -/
theorem munched (h : Lexeme kind text literal)
    (hrest : ∀ c ∈ rest.head?, c ∈ [' ', '\t', '\r', '\n']) :
    (Segment.lexeme kind text literal).Munched rest := by
  refine .longest (.lexeme h) fun t ht hp => ?_
  rcases Nat.lt_or_ge text.length t.text.length with hlt | hge
  · cases rest with
    | nil => exact absurd hp.length_le (by simpa [Segment.text] using hlt)
    | cons c rest =>
      have hblank : text ++ [c] <+: text ++ c :: rest := by simp
      refine absurd ?_ (h.not_prefix_of_blank (hrest c rfl) ht)
      refine List.prefix_of_prefix_length_le hblank hp ?_
      rwa [List.length_append]
  · exact List.prefix_of_prefix_length_le hp (List.prefix_append _ _) hge

end Lexeme

/-! ## What is between lexemes -/

namespace Segment

theorem munched_blank (h : c ∈ [' ', '\t', '\r', '\n']) (rest : List Char) :
    (blank c).Munched rest := by
  have hnext : next c rest = blank c := next_blank h
  exact hnext ▸ munched_next (by rw [hnext]; rfl)

theorem munched_comment (h : '\n' ∉ cs) (rest : List Char) :
    (comment ('/' :: '/' :: cs)).Munched ('\n' :: rest) := by
  have hrun : ∀ c ∈ '/' :: cs, c != '\n' := by
    simpa using fun c hc => ne_of_mem_of_not_mem hc h
  have hline : ('/' :: cs ++ '\n' :: rest).takeWhile (· != '\n') = '/' :: cs :=
    takeWhile_run hrun (by simp)
  rw [List.cons_append] at hline
  have hnext : next '/' ('/' :: (cs ++ '\n' :: rest)) = comment ('/' :: '/' :: cs) := by
    rw [next_slash, if_pos (List.head?_cons ..), hline]
  exact hnext ▸ munched_next (by rw [hnext]; simp [text])

end Segment

/-- Nothing but blanks and comments is made of blanks and comments. -/
theorem Spacing.decomposes (h : Spacing cs) (hrest : Decomposes rest ts) :
    ∃ ss, Decomposes (cs ++ rest) (ss ++ ts) ∧ (∀ s ∈ ss, Phrase s) ∧
      ss.filterMap Segment.content? = [] := by
  induction h with
  | nil => exact ⟨[], hrest, List.forall_mem_nil _, rfl⟩
  | blank hc _ ih =>
    obtain ⟨ss, hss, hphrases, hcontent⟩ := ih
    exact ⟨.blank _ :: ss, .cons (Segment.munched_blank hc _) hss,
      List.forall_mem_cons.2 ⟨.blank hc, hphrases⟩, hcontent⟩
  | @comment text cs htext _ ih =>
    obtain ⟨ss, hss, hphrases, hcontent⟩ := ih
    have hnewline := hss.cons (Segment.munched_blank (c := '\n') (by simp) _)
    have hall := Decomposes.cons (Segment.munched_comment htext (cs ++ rest)) hnewline
    refine ⟨.comment ('/' :: '/' :: text) :: .blank '\n' :: ss, ?_, ?_, hcontent⟩
    · simpa [Segment.text] using hall
    · exact List.forall_mem_cons.2 ⟨.comment htext,
        List.forall_mem_cons.2 ⟨.blank (by simp), hphrases⟩⟩

/-! ## The scan of a layout -/

/-- The tokens laid out are what the text decomposes into, with blanks and comments between. -/
theorem LaidOut.decomposes {ts : List Token} (h : LaidOut (ts.map (·.lexeme.toList)) cs)
    (hts : ∀ t ∈ ts, Lexeme t.kind t.lexeme.toList t.literal) :
    ∃ ss, Decomposes cs ss ∧ (∀ s ∈ ss, Phrase s) ∧
      ss.filterMap Segment.content? = ts.map Token.content := by
  induction ts generalizing cs with
  | nil =>
    cases h
    exact ⟨[], decomposes_segments [], List.forall_mem_nil _, rfl⟩
  | cons t ts ih =>
    obtain ⟨ht, hts⟩ := List.forall_mem_cons.1 hts
    have hcontent : (Segment.lexeme t.kind t.lexeme.toList t.literal).content? =
        some t.content := by
      simp [Segment.content?, Token.content]
    cases ts with
    | nil =>
      cases h
      have halone : (Segment.lexeme t.kind t.lexeme.toList t.literal).Munched [] :=
        ht.munched nofun
      have hone := Decomposes.cons halone (decomposes_segments [])
      rw [List.append_nil] at hone
      exact ⟨_, hone, List.forall_mem_singleton.2 (.lexeme ht), by simp [hcontent]⟩
    | cons u us =>
      cases h with
      | cons hsep h =>
        obtain ⟨ss, hss, hphrases, hcontents⟩ := ih h hts
        obtain ⟨hc, hspacing⟩ := hsep
        obtain ⟨bs, hbs, hblank, hnone⟩ := hspacing.decomposes hss
        refine ⟨_, .cons (ht.munched ?_) (.cons (Segment.munched_blank hc _) hbs), ?_, ?_⟩
        · rintro _ ⟨⟩
          exact hc
        · exact List.forall_mem_cons.2 ⟨.lexeme ht, List.forall_mem_cons.2 ⟨.blank hc,
            List.forall_mem_append.2 ⟨hblank, hphrases⟩⟩⟩
        · rw [List.filterMap_cons_some hcontent, List.filterMap_cons_none rfl,
            List.filterMap_append, hnone, hcontents]
          rfl

theorem lexeme_of_mem_words (h : t ∈ words source) : Lexeme t.kind t.lexeme.toList t.literal := by
  obtain ⟨⟨p, s⟩, hs, ht⟩ := List.mem_filterMap.1 h
  cases s with
  | lexeme kind text literal =>
    cases ht
    obtain ⟨before, after, heq⟩ := List.append_of_mem (Place.mem_ofSegments hs)
    cases (decomposes_segments source).munched before _ after heq with
    | longest hp =>
      cases hp with
      | lexeme h => simpa using h
  | _ => cases ht

theorem reports_scan_of_phrases (h : ∀ s ∈ segments source, Phrase s) :
    (scan source).reports = [] := by
  rw [scan, List.filterMap_eq_nil_iff]
  rintro ⟨p, s⟩ hs
  cases h s (Place.mem_ofSegments hs) <;> rfl

/-- Whatever the lexemes of a source are laid out with, scanning makes no report, and the tokens are
the same but for their places. So they are read the same way, with the same tree and reports but for
the places of tokens. -/
theorem scan_laidOut {source cs : List Char}
    (h : LaidOut ((words source).map (·.lexeme.toList)) cs) :
    (scan cs).reports = [] ∧
      (scan cs).tokens.map Token.content = (scan source).tokens.map Token.content ∧
      ∀ room,
        Grammar.Reading.Alike (List.Forall₂ (StmtMatches .content))
          (Grammar.readProgram room (scan source).tokens)
          (Grammar.readProgram room (scan cs).tokens) ∧
        Grammar.Reading.Alike (Option.Rel (ExprMatches .content))
          (Grammar.readExpression room (scan source).tokens)
          (Grammar.readExpression room (scan cs).tokens) := by
  obtain ⟨ss, hss, hphrases, hcontent⟩ := h.decomposes fun t ht => lexeme_of_mem_words ht
  obtain rfl := hss.unique (decomposes_segments cs)
  have hsame : (scan cs).tokens.map Token.content = (scan source).tokens.map Token.content := by
    rw [tokens_scan, tokens_scan, List.map_append, List.map_append, content_words, hcontent]
    rfl
  exact ⟨reports_scan_of_phrases hphrases, hsame, fun room =>
    ⟨Grammar.readProgram_alike room hsame, Grammar.readExpression_alike room hsame⟩⟩

/-- A slash in front of a comment, a number in front of a point, a string that holds slashes and
marks that would be one mark without the blank. -/
theorem scan_laidOut_of_slashes :
    let source := "x=a/b==\"//\";2 .y= =!".toList
    let cs := "x =\ta / // half\n// and half\nb == \"//\"\r; 2 .\ny = = !".toList
    LaidOut ((words source).map (·.lexeme.toList)) cs ∧ (scan cs).reports = [] ∧
      (scan cs).tokens.map Token.content = (scan source).tokens.map Token.content ∧
      Grammar.Reading.Alike (List.Forall₂ (StmtMatches .content))
        (Grammar.readProgram 30 (scan source).tokens)
        (Grammar.readProgram 30 (scan cs).tokens) := by
  intro source cs
  have hwords : (words source).map (·.lexeme.toList) =
      [['x'], ['='], ['a'], ['/'], ['b'], ['=', '='], ['"', '/', '/', '"'], [';'], ['2'], ['.'],
        ['y'], ['='], ['='], ['!']] := by
    decide +kernel
  have hspace (c : Char) (hc : c ∈ [' ', '\t', '\r', '\n'] := by decide) : Separator [c] :=
    .mk hc .nil
  have hcomments : Separator " // half\n// and half\n".toList :=
    .mk (by decide) (.comment (by decide : '\n' ∉ " half".toList)
      (.comment (by decide : '\n' ∉ " and half".toList) .nil))
  have hlaid : LaidOut ((words source).map (·.lexeme.toList)) cs := by
    rw [hwords]
    exact .cons (hspace ' ') <| .cons (hspace '\t') <| .cons (hspace ' ') <| .cons hcomments <|
      .cons (hspace ' ') <| .cons (hspace ' ') <| .cons (hspace '\r') <| .cons (hspace ' ') <|
      .cons (hspace ' ') <| .cons (hspace '\n') <| .cons (hspace ' ') <| .cons (hspace ' ') <|
      .cons (hspace ' ') .one
  obtain ⟨hreports, hcontent, hread⟩ := scan_laidOut hlaid
  exact ⟨hlaid, hreports, hcontent, (hread 30).1⟩

end LoxLang
