import LoxLang.Proofs.Continuation
import LoxLang.Proofs.Lexemes

/-!
# Texts that grow at their end

What the scanner has found of a text stands when more comes behind it, unless the last segment goes
on. A newline ends every segment but a string that is not closed yet, such a string takes in what
comes up to the next quote, and a blank at the end is part of no lexeme (`solids_append_blank`). So
what a text grows by depends on nothing of it but whether a string is open (`solids_append_congr`).
-/

namespace LoxLang

/-! ## One segment -/

theorem segments_eq_cons {s : Segment} (h : s.Munched rest) :
    segments (s.text ++ rest) = s :: segments rest :=
  (decomposes_segments _).unique (.cons h (decomposes_segments rest))

/-- The first segment of a text and the text behind it. -/
theorem exists_of_segments_eq_cons (h : segments source = s :: ss) :
    ∃ rest, source = s.text ++ rest ∧ s.Munched rest ∧ segments rest = ss := by
  have hd := decomposes_segments source
  rw [h] at hd
  exact ⟨_, hd.flatten.symm, hd.head, (decomposes_segments _).unique hd.tail⟩

/-- A phrase that goes beyond a text is a lexeme, or the text is a comment already. -/
theorem Phrase.isPrefix_or (ht : Phrase t) (hpre : t.text <+: y ++ x) (hy : 2 ≤ y.length)
    (hx : ∀ {kind text literal}, Lexeme kind text literal → text <+: y ++ x →
      text.length ≤ y.length) :
    t.text <+: y ∨ ∃ cs, '\n' ∉ cs ∧ y = '/' :: '/' :: cs := by
  rcases Nat.le_total t.text.length y.length with hle | hle
  · exact .inl (List.prefix_of_prefix_length_le hpre (List.prefix_append y x) hle)
  have hpre' := List.prefix_of_prefix_length_le (List.prefix_append y x) hpre hle
  cases ht with
  | lexeme hlexeme =>
    exact .inl (List.prefix_of_prefix_length_le hpre (List.prefix_append y x) (hx hlexeme hpre))
  | blank =>
    have hone : y.length ≤ 1 := hpre'.length_le
    omega
  | comment hcs =>
    match y, hy with
    | c :: d :: ds, _ =>
      obtain ⟨hc, hdcs⟩ := List.cons_prefix_cons.1 hpre'
      obtain ⟨hd, hds⟩ := List.cons_prefix_cons.1 hdcs
      exact .inr ⟨ds, fun hmem => hcs (hds.subset hmem), by rw [hc, hd]⟩

/-- A segment stays what it is when the text behind it grows, unless a lexeme could reach beyond the
end. -/
theorem Segment.Munched.append {s : Segment} (h : s.Munched v) (hv : v ≠ [])
    (hx : ∀ {kind text literal}, Lexeme kind text literal → text <+: (s.text ++ v) ++ x →
      text.length ≤ (s.text ++ v).length) : s.Munched (v ++ x) := by
  have hlength : 2 ≤ (s.text ++ v).length := by
    have hs := List.length_pos_iff.2 h.text_ne_nil
    have hv := List.length_pos_iff.2 hv
    rw [List.length_append]
    omega
  cases h with
  | longest hs hmax =>
    refine .longest hs fun t ht hpre => ?_
    rw [← List.append_assoc] at hpre
    rcases ht.isPrefix_or hpre hlength hx with hpre | ⟨cs, hcs, heq⟩
    · exact hmax t ht hpre
    · -- the comment would have been longer before as well
      have hlong := hmax _ (.comment hcs) ⟨[], by rw [List.append_nil, heq]; rfl⟩
      have hle : (s.text ++ v).length ≤ s.text.length := heq ▸ hlong.length_le
      rw [List.length_append] at hle
      exact absurd (List.length_eq_zero_iff.1 (by omega)) hv
  | stray hc hnone =>
    refine .stray hc fun t ht hpre => ?_
    rcases ht.isPrefix_or hpre hlength hx with hpre | ⟨cs, hcs, heq⟩
    · exact hnone t ht hpre
    · exact hnone _ (.comment hcs) ⟨[], by rw [List.append_nil]; exact heq.symm⟩
  | unclosed => exact absurd rfl hv

/-! ## Behind a quote -/

/-- No lexeme reaches beyond a quote inside it. -/
theorem Lexeme.length_le_of_quote {y x : List Char} (h : Lexeme kind text literal) (hy : '"' ∈ v)
    (hne : y ≠ []) (hpre : text <+: (y ++ v) ++ x) : text.length ≤ (y ++ v).length := by
  by_contra hlong
  have hinside := List.prefix_of_prefix_length_le (List.prefix_append _ x) hpre (by omega)
  obtain ⟨body, hbody, rfl⟩ := h.eq_string (hinside.subset (List.mem_append_right _ hy))
  obtain ⟨c, y, rfl⟩ := List.exists_cons_of_ne_nil hne
  have hinside : y ++ v <+: body ++ ['"'] := (List.cons_prefix_cons.1 hinside).2
  have hshort : (y ++ v).length ≤ body.length := by simp at hlong ⊢; omega
  have hbefore := List.prefix_of_prefix_length_le hinside (List.prefix_append body _) hshort
  exact hbody (hbefore.subset (List.mem_append_right _ hy))

/-- In front of an open string nothing changes. -/
theorem segments_append_of_unclosed {front : List Segment}
    (h : segments u = front ++ [.unclosed q]) (x : List Char) :
    segments (u ++ x) = front ++ segments (q ++ x) := by
  induction front generalizing u with
  | nil =>
    obtain rfl : u = q := by simpa [h, Segment.text] using (flatten_segments u).symm
    rfl
  | cons s front ih =>
    obtain ⟨rest, rfl, hs, hrest⟩ := exists_of_segments_eq_cons h
    have hquote : '"' ∈ rest := by
      have hmem : Segment.unclosed q ∈ segments rest := by simp [hrest]
      obtain ⟨before, after, heq⟩ := List.append_of_mem hmem
      have hmunched := (decomposes_segments rest).munched before _ after heq
      have hq : '"' ∈ q := by
        generalize (after.map Segment.text).flatten = tail at hmunched
        cases hmunched with
        | longest hphrase => cases hphrase
        | unclosed => exact List.mem_cons_self
      have hall := flatten_segments rest
      rw [heq] at hall
      rw [← hall]
      simp [Segment.text, hq]
    have hs' : s.Munched (rest ++ x) := hs.append (List.ne_nil_of_mem hquote) fun hlexeme =>
      hlexeme.length_le_of_quote hquote hs.text_ne_nil
    rw [List.append_assoc, segments_eq_cons hs', ih hrest, List.cons_append]

/-! ## Blanks at the end -/

/-- No lexeme reaches up to a blank at the end. -/
theorem Lexeme.length_le_of_blank (h : Lexeme kind text literal) (hc : Text.isBlank c)
    (hpre : text <+: y ++ [c]) : text.length ≤ y.length := by
  by_contra hlong
  have hle := hpre.length_le
  obtain rfl : text = y ++ [c] := hpre.eq_of_length (by simp at hle ⊢; omega)
  obtain ⟨front, d, heq, hlast⟩ := h.exists_last
  obtain ⟨-, hd⟩ := List.append_inj' heq rfl
  obtain rfl : c = d := by simpa using hd
  exact absurd hc (by simp [hlast.visible])

/-- The segments that make tokens or open a string. -/
def Segment.isSolid : Segment → Bool
  | lexeme _ _ _ | unclosed _ => true
  | _ => false

/-- What the scanner finds in a text, blanks, comments and stray characters aside. -/
def solids (source : List Char) : List Segment := (segments source).filter Segment.isSolid

/-- Whether a string is not closed at the end of a text. -/
def isOpen (source : List Char) : Bool := (segments source).any Segment.isUnclosed

theorem munched_comment {cs : List Char} (h : '\n' ∉ cs) :
    (Segment.comment ('/' :: '/' :: cs)).Munched [] :=
  .longest (.comment h) fun t _ hpre => by simpa using hpre

theorem Segment.Munched.unique {s t : Segment} (hs : s.Munched v) (ht : t.Munched v)
    (h : s.text = t.text) : s = t := by
  obtain ⟨c, cs, hcs⟩ := List.exists_cons_of_ne_nil hs.text_ne_nil
  have hrest : s.text ++ v = c :: (cs ++ v) := by rw [hcs, List.cons_append]
  exact (hs.eq_next hrest).trans (ht.eq_next (h ▸ hrest)).symm

/-- The last segment goes on with a blank only if it is a comment. -/
theorem segments_append_blank_last (h : s.Munched []) (hs : s.isUnclosed = false)
    (hc : Text.isBlank c) :
    segments (s.text ++ [c]) = s :: segments [c] ∨
      ∃ cs ds, s = .comment cs ∧ segments (s.text ++ [c]) = [.comment ds] := by
  by_cases hcomment : ∃ cs, '\n' ∉ cs ∧ s.text ++ [c] = '/' :: '/' :: cs
  · obtain ⟨cs, hcs, heq⟩ := hcomment
    refine .inr ⟨s.text, '/' :: '/' :: cs, ?_, ?_⟩
    · obtain ⟨ds, hds⟩ : ∃ ds, s.text = '/' :: '/' :: ds ∧ '\n' ∉ ds := by
        match hcs' : s.text, heq with
        | [], heq => simp at heq
        | [d], heq =>
          obtain ⟨-, rfl, -⟩ : d = '/' ∧ c = '/' ∧ cs = [] := by simpa using heq
          exact absurd hc (by decide)
        | d :: e :: ds, heq =>
          obtain ⟨rfl, rfl, rfl⟩ : d = '/' ∧ e = '/' ∧ ds ++ [c] = cs := by simpa using heq
          exact ⟨ds, rfl, fun hmem => hcs (List.mem_append_left _ hmem)⟩
      rw [hds.1]
      exact h.unique (munched_comment hds.2) hds.1
    · have hsegments := segments_eq_cons (munched_comment hcs)
      rw [List.append_nil] at hsegments
      rw [heq]
      exact hsegments
  · have hinside {t : Segment} (ht : Phrase t) (hpre : t.text <+: s.text ++ [c]) :
        t.text <+: s.text := by
      have hlength : t.text.length ≤ s.text.length := by
        cases ht with
        | lexeme hlexeme => exact hlexeme.length_le_of_blank hc hpre
        | blank => exact List.length_pos_iff.2 h.text_ne_nil
        | @comment cs hcs =>
          by_contra hlong
          refine hcomment ⟨cs, hcs, (hpre.eq_of_length ?_).symm⟩
          have hle := hpre.length_le
          simp only [List.length_append, List.length_singleton] at hle ⊢
          omega
      exact List.prefix_of_prefix_length_le hpre (List.prefix_append ..) hlength
    have hmunched : s.Munched [c] := by
      cases h with
      | longest hp hmax =>
        exact .longest hp fun t ht hpre => hmax t ht (by simpa using hinside ht hpre)
      | stray hd hnone => exact .stray hd fun t ht hpre => hnone t ht (hinside ht hpre)
      | unclosed => cases hs
    exact .inl (segments_eq_cons hmunched)

/-- What begins with a blank that is a segment by itself. -/
theorem segments_blank (hc : Text.isBlank c) :
    ∃ s, segments [c] = [s] ∧ s.isSolid = false := by
  have hone : (Segment.next c []).text = [c] :=
    (Segment.text_next_isPrefix c []).eq_of_length_le
      (List.length_pos_iff.2 (Segment.text_next_ne_nil c []))
  refine ⟨Segment.next c [], by rw [segments_cons, hone]; rfl, ?_⟩
  rcases Segment.next_cases c [] with hphrase | ⟨-, hstray⟩ | ⟨rfl, -⟩
  · generalize Segment.next c [] = s at hphrase hone
    cases hphrase with
    | lexeme hlexeme =>
      obtain ⟨front, d, heq, hlast⟩ := hlexeme.exists_last
      have heq : [] ++ [c] = front ++ [d] := hone.symm.trans heq
      obtain ⟨-, hd⟩ := List.append_inj' heq rfl
      obtain rfl : c = d := by simpa using hd
      exact absurd hc (by simp [hlast.visible])
    | blank | comment => rfl
  · rw [hstray]
    rfl
  · exact absurd hc (by decide)

/-- A blank behind a text that leaves no string open changes nothing that is found. -/
theorem solids_append_blank (h : isOpen u = false) (hc : Text.isBlank c) :
    solids (u ++ [c]) = solids u := by
  generalize hss : segments u = ss
  induction ss generalizing u with
  | nil =>
    obtain rfl : u = [] := by simpa [hss] using (flatten_segments u).symm
    obtain ⟨s, hs, hsolid⟩ := segments_blank hc
    simp [solids, hs, hsolid]
  | cons s ss ih =>
    obtain ⟨rest, rfl, hs, hrest⟩ := exists_of_segments_eq_cons hss
    have hclosed : s.isUnclosed = false ∧ ss.any Segment.isUnclosed = false := by
      simpa [isOpen, hss] using h
    have hfirst : solids (s.text ++ rest) = [s].filter Segment.isSolid ++ solids rest := by
      rw [solids, hss, solids, hrest, ← List.filter_append]
      rfl
    by_cases hnil : rest = []
    · subst hnil
      rw [hfirst, List.append_nil]
      rcases segments_append_blank_last hs hclosed.1 hc with hnext | ⟨cs, ds, rfl, hnext⟩
      · obtain ⟨t, ht, hsolid⟩ := segments_blank hc
        rw [solids, hnext, ht]
        simp [List.filter_cons, hsolid, solids]
      · rw [solids, hnext]
        rfl
    · have hs' : s.Munched (rest ++ [c]) := hs.append hnil fun hlexeme =>
        hlexeme.length_le_of_blank hc
      rw [hfirst, ← ih (by simpa [isOpen, hrest] using hclosed.2) hrest, List.append_assoc, solids,
        segments_eq_cons hs', solids, ← List.filter_append]
      rfl

/-! ## What a text grows by -/

theorem isOpen_eq_any_solids (source : List Char) :
    isOpen source = (solids source).any Segment.isUnclosed := by
  rw [isOpen, solids, List.any_filter]
  congr 1
  funext s
  cases s <;> rfl

/-- More comes behind a text that leaves no string open. -/
theorem solids_append_of_closed (h : isOpen u = false) (hx : ∀ c ∈ x.head?, c = '\n') :
    solids (u ++ x) = solids u ++ solids x := by
  cases x with
  | nil => simp [solids]
  | cons c more =>
    obtain rfl := hx c rfl
    have hclosed (text : List Char) : Segment.unclosed text ∉ segments u := fun hmem =>
      absurd (List.any_eq_true.2 ⟨_, hmem, rfl⟩) (Bool.eq_false_iff.1 h)
    have hnewline : segments ('\n' :: more) = .blank '\n' :: segments more := segments_cons ..
    rw [solids, segments_append_newline u more hclosed, List.filter_append, solids, solids,
      hnewline]

/-- What has been found in front of an open string, and how the string goes on. -/
structure OpensWith (u : List Char) (found : List Segment) (body : List Char) : Prop where
  quote : '"' ∉ body
  closed : found.any Segment.isUnclosed = false
  append : ∀ x, solids (u ++ x) = found ++ solids ('"' :: (body ++ x))

theorem exists_opensWith (h : isOpen u) : ∃ found body, OpensWith u found body := by
  obtain ⟨front, body, hbody, hclosed, hu⟩ : ∃ front body, '"' ∉ body ∧
      front.any Segment.isUnclosed = false ∧ segments u = front ++ [.unclosed ('"' :: body)] := by
    generalize hss : segments u = ss
    induction ss generalizing u with
    | nil => simp [isOpen, hss] at h
    | cons s ss ih =>
      obtain ⟨rest, rfl, hs, hrest⟩ := exists_of_segments_eq_cons hss
      cases hunclosed : s.isUnclosed with
      | true =>
        cases hs with
        | longest hp => cases hp <;> cases hunclosed
        | stray => cases hunclosed
        | @unclosed body hbody =>
          obtain rfl : [] = ss := hrest
          exact ⟨[], body, hbody, rfl, rfl⟩
      | false =>
        obtain ⟨front, body, hbody, hclosed, rfl⟩ :=
          ih (by simpa [isOpen, hss, hrest, hunclosed] using h) hrest
        exact ⟨s :: front, body, hbody, by simp [hunclosed, hclosed], rfl⟩
  refine ⟨front.filter Segment.isSolid, body, hbody, ?_, fun x => ?_⟩
  · rw [List.any_eq_false] at hclosed ⊢
    exact fun s hs => hclosed s (List.mem_of_mem_filter hs)
  · rw [solids, segments_append_of_unclosed hu, List.filter_append]
    rfl

/-- How many characters have been found. -/
def weight (source : List Char) : Nat := ((solids source).flatMap Segment.text).length

theorem solids_unclosed (h : '"' ∉ body) : solids ('"' :: body) = [.unclosed ('"' :: body)] := by
  have hsegments := segments_eq_cons (.unclosed h)
  simp only [Segment.text, List.append_nil, segments_nil] at hsegments
  rw [solids, hsegments]
  rfl

theorem solids_quoted (h : '"' ∉ body) (more : List Char) :
    solids ('"' :: (body ++ '"' :: more)) =
      .lexeme .string ('"' :: body ++ ['"']) (some (.string (.ofList body))) :: solids more := by
  rw [solids, segments_cons, Segment.next_closed h, List.filter_cons_of_pos rfl, solids]
  congr 3
  simp [Segment.text]

theorem OpensWith.endsInString (h : OpensWith u found body) (x : List Char) :
    isOpen (u ++ x) = isOpen ('"' :: (body ++ x)) := by
  rw [isOpen_eq_any_solids, h.append, List.any_append, h.closed, Bool.false_or,
    ← isOpen_eq_any_solids]

theorem OpensWith.weight_append (h : OpensWith u found body) (x : List Char) :
    weight (u ++ x) = (found.flatMap Segment.text).length + weight ('"' :: (body ++ x)) := by
  rw [weight, h.append, List.flatMap_append, List.length_append, weight]

theorem OpensWith.weight_eq (h : OpensWith u found body) :
    weight u = (found.flatMap Segment.text).length + (body.length + 1) := by
  have hu := h.weight_append []
  rw [List.append_nil, List.append_nil] at hu
  rw [hu, weight, solids_unclosed h.quote]
  simp [Segment.text]

/-- What holds no quote goes on with an open string. -/
theorem grows_open (hu : isOpen u = true) (hx : '"' ∉ x) :
    weight (u ++ x) = weight u + x.length ∧ isOpen (u ++ x) = true := by
  obtain ⟨found, body, h⟩ := exists_opensWith hu
  have hbody : '"' ∉ body ++ x := by simp [h.quote, hx]
  rw [h.weight_append, h.endsInString, h.weight_eq, weight, isOpen_eq_any_solids,
    solids_unclosed hbody]
  simp [Segment.text, Segment.isUnclosed]
  omega

/-- By how much a text grows, and whether it leaves a string open then, depends only on whether it
left one open before. -/
theorem exists_growth (opened : Bool) (hx : ∀ c ∈ x.head?, c = '\n') :
    ∃ k o, ∀ u, isOpen u = opened → weight (u ++ x) = weight u + k ∧ isOpen (u ++ x) = o := by
  cases opened with
  | false =>
    refine ⟨weight x, isOpen x, fun u hu => ?_⟩
    rw [weight, solids_append_of_closed hu hx, List.flatMap_append, List.length_append,
      isOpen_eq_any_solids, solids_append_of_closed hu hx, List.any_append,
      ← isOpen_eq_any_solids, hu, Bool.false_or, ← isOpen_eq_any_solids]
    exact ⟨rfl, rfl⟩
  | true =>
    by_cases hq : '"' ∈ x
    · obtain ⟨y, z, rfl, hy⟩ := List.eq_append_cons_of_mem hq
      refine ⟨y.length + 1 + weight z, isOpen z, fun u hu => ?_⟩
      obtain ⟨found, body, h⟩ := exists_opensWith hu
      have hbody : '"' ∉ body ++ y := by simp [h.quote, hy]
      rw [h.weight_append, h.endsInString, h.weight_eq, weight, isOpen_eq_any_solids,
        ← List.append_assoc, solids_quoted hbody, isOpen_eq_any_solids, weight]
      simp [Segment.text, Segment.isUnclosed]
      omega
    · exact ⟨x.length, true, fun u hu => grows_open hu hq⟩

theorem solids_append_congr (h : solids u = solids v) (hx : ∀ c ∈ x.head?, c = '\n') :
    solids (u ++ x) = solids (v ++ x) := by
  have hopen : isOpen u = isOpen v := by rw [isOpen_eq_any_solids, h, ← isOpen_eq_any_solids]
  cases hu : isOpen u with
  | false =>
    rw [solids_append_of_closed hu hx, solids_append_of_closed (hopen ▸ hu) hx, h]
  | true =>
    obtain ⟨found, body, hu'⟩ := exists_opensWith hu
    obtain ⟨found', body', hv'⟩ := exists_opensWith (hopen ▸ hu)
    have hsame : found ++ [.unclosed ('"' :: body)] = found' ++ [.unclosed ('"' :: body')] := by
      have hleft := hu'.append []
      have hright := hv'.append []
      rw [List.append_nil, List.append_nil, solids_unclosed hu'.quote] at hleft
      rw [List.append_nil, List.append_nil, solids_unclosed hv'.quote] at hright
      exact hleft.symm.trans (h.trans hright)
    obtain ⟨rfl, hbody⟩ := List.append_inj' hsame rfl
    obtain rfl : body = body' := by simpa using hbody
    rw [hu'.append, hv'.append]

/-- Blanks behind a text that leaves no string open are not found. -/
theorem solids_append_blanks (h : isOpen u = false) (hx : ∀ c ∈ x, Text.isBlank c) :
    solids (u ++ x) = solids u := by
  induction x using List.reverseRecOn with
  | nil => rw [List.append_nil]
  | append_singleton x c ih =>
    have hsolids := ih fun d hd => hx d (List.mem_append_left _ hd)
    have hclosed : isOpen (u ++ x) = false := by
      rw [isOpen_eq_any_solids, hsolids, ← isOpen_eq_any_solids, h]
    rw [← List.append_assoc, solids_append_blank hclosed (hx c (by simp)), hsolids]

end LoxLang
