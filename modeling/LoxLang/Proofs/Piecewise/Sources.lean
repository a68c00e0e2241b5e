import LoxLang.Proofs.MaximalMunch
import LoxLang.Text.Lines

/-!
# A source behind another one

A source is scanned with another one behind it on a new line (`scan_append_newline`). No lexeme
reaches over the newline unless it is in a string, and a string that was closed stays as it is. So
the tokens are those of the two sources, the second ones moved down by the lines of the first source
(`Token.down`).
-/

namespace LoxLang

/-! ## The segments -/

namespace Segment

theorem head?_append_newline (h : c ≠ '\n') (cs more : List Char) :
    (cs ++ '\n' :: more).head? = some c ↔ cs.head? = some c := by
  cases cs <;> simp [h.symm]

/-- A run of characters ends before the newline at the latest. -/
theorem takeWhile_append_newline {p : Char → Bool} (h : p '\n' = false) (cs more : List Char) :
    (cs ++ '\n' :: more).takeWhile p = cs.takeWhile p := by
  induction cs with
  | nil => simp [h]
  | cons c cs ih => simp only [List.cons_append, List.takeWhile_cons, ih]

theorem dropWhile_append_newline {p : Char → Bool} (h : p '\n' = false) (cs more : List Char) :
    (cs ++ '\n' :: more).dropWhile p = cs.dropWhile p ++ '\n' :: more := by
  induction cs with
  | nil => simp [h]
  | cons c cs ih =>
    simp only [List.cons_append, List.dropWhile_cons, ih]
    split <;> rfl

theorem fraction_append_newline (cs more : List Char) :
    fraction (cs ++ '\n' :: more) = fraction cs := by
  have hdigits (ds : List Char) := takeWhile_append_newline (p := Number.isDigit) rfl ds more
  rcases cs with _ | ⟨c, _ | ⟨d, ds⟩⟩
  · rfl
  all_goals
    by_cases hc : c = '.'
    · subst hc
      simp [fraction, hdigits, Number.isDigit]
    · simp [fraction, hc]

theorem numeral_append_newline (cs more : List Char) :
    numeral (cs ++ '\n' :: more) = numeral cs := by
  rw [numeral, takeWhile_append_newline rfl, dropWhile_append_newline rfl, fraction_append_newline]
  rfl

/-- A newline and what comes behind it change no segment but a string that is not closed. -/
theorem next_append_newline (h : c = '"' → '"' ∈ rest) (more : List Char) :
    next c (rest ++ '\n' :: more) = next c rest := by
  by_cases hq : c = '"'
  · subst hq
    obtain ⟨body, tail, rfl, hbody⟩ := List.eq_append_cons_of_mem (h rfl)
    rw [List.append_assoc, List.cons_append, next_closed hbody, next_closed hbody]
  · have hhead {d : Char} (hd : d ≠ '\n') := head?_append_newline hd rest more
    have hrun {p : Char → Bool} (hp : p '\n' = false) := takeWhile_append_newline hp rest more
    simp only [next, hhead (d := '=') (by decide), hhead (d := '/') (by decide),
      hrun (p := (· != '\n')) rfl, hrun (p := isWordChar) rfl, ← List.cons_append,
      numeral_append_newline, hq, if_false]

end Segment

open Segment in
theorem segments_append_newline (cs more : List Char)
    (h : ∀ text, Segment.unclosed text ∉ segments cs) :
    segments (cs ++ '\n' :: more) = segments cs ++ .blank '\n' :: segments more := by
  induction hn : cs.length using Nat.strongRecOn generalizing cs with
  | ind n ih =>
    cases cs with
    | nil => rw [List.nil_append, segments_cons]; rfl
    | cons c rest =>
      rw [segments_cons] at h
      have hnext : next c (rest ++ '\n' :: more) = next c rest := by
        refine next_append_newline (fun hc => Decidable.byContradiction fun hq => ?_) more
        subst hc
        exact h _ (List.mem_cons.2 (.inl (next_unclosed hq).symm))
      have hpos := List.length_pos_iff.2 (text_next_ne_nil c rest)
      have hle := (text_next_isPrefix c rest).length_le
      rw [List.cons_append, segments_cons, segments_cons, hnext, ← List.cons_append,
        List.drop_append_of_le_length hle, ih _ _ _ (fun text ht => h text (.tail _ ht)) rfl,
        List.cons_append]
      simp only [List.length_drop]
      omega

/-! ## The places -/

/-- A place further down. -/
def Place.down (k : Nat) (p : Place) : Place := ⟨p.line + k, p.column⟩

/-- A token whose place is mapped to another one. -/
def Token.put (f : Place → Place) (t : Token) : Token :=
  { t with line := (f ⟨t.line, t.column⟩).line, column := (f ⟨t.line, t.column⟩).column }

/-- A token further down. -/
def Token.down (k : Nat) (t : Token) : Token := { t with line := t.line + k }

theorem Token.put_down (k : Nat) : Token.put (.down k) = Token.down k := rfl

namespace Place

theorem after_down (k : Nat) (p : Place) (cs : List Char) :
    (p.down k).after cs = (p.after cs).down k := by
  induction cs generalizing p with
  | nil => rfl
  | cons c cs ih =>
    have hstep : (p.down k).step c = (p.step c).down k := by
      unfold step
      split
      · simp only [down, Nat.add_right_comm]
      · rfl
    simp only [after, List.foldl_cons, hstep] at ih ⊢
    exact ih _

theorem ofSegments_append (p : Place) (ss ts : List Segment) :
    p.ofSegments (ss ++ ts) =
      p.ofSegments ss ++ (p.after (ss.map Segment.text).flatten).ofSegments ts := by
  induction ss generalizing p with
  | nil => rfl
  | cons s ss ih =>
    simp only [List.cons_append, ofSegments_cons, ih, List.map_cons, List.flatten_cons,
      after_append]

/-- Segments from another place on, when a map of places goes along with every text from there. -/
theorem ofSegments_map {f : Place → Place} {p : Place}
    (h : ∀ cs, (f p).after cs = f (p.after cs)) (ss : List Segment) :
    (f p).ofSegments ss = (p.ofSegments ss).map (Prod.map f id) := by
  induction ss generalizing p with
  | nil => rfl
  | cons s ss ih =>
    have hs (cs : List Char) : (f (p.after s.text)).after cs = f ((p.after s.text).after cs) := by
      rw [← h, ← after_append, h, after_append]
    rw [ofSegments_cons, ofSegments_cons, List.map_cons, h, ih hs]
    rfl

theorem ofSegments_down (k : Nat) (p : Place) (ss : List Segment) :
    (p.down k).ofSegments ss = (p.ofSegments ss).map fun (q, s) => (q.down k, s) :=
  ofSegments_map (p.after_down k) ss

theorem map_snd_ofSegments (p : Place) (ss : List Segment) :
    (p.ofSegments ss).map Prod.snd = ss := by
  induction ss generalizing p with
  | nil => rfl
  | cons s ss ih => rw [ofSegments_cons, List.map_cons, ih]

/-- The place behind a source and a newline. -/
theorem after_newline (cs : List Char) :
    (start.after cs).step '\n' = start.down (Text.lines cs).length := by
  have hline (p : Place) : (p.after cs).line = p.line + cs.count '\n' := by
    induction cs generalizing p with
    | nil => rfl
    | cons c cs ih =>
      rw [show p.after (c :: cs) = (p.step c).after cs from rfl, ih, List.count_cons]
      by_cases hc : c = '\n'
      · simp [step, hc, Nat.add_comm, Nat.add_left_comm]
      · simp [step, hc]
  rw [Text.length_lines, step, if_pos rfl, hline, down, start, Nat.add_assoc]

end Place

namespace Segment

theorem token?_put (f : Place → Place) (p : Place) (s : Segment) :
    s.token? (f p) = (s.token? p).map (Token.put f) := by
  cases s <;> rfl

/-- Whether there is a report does not depend on the place. -/
theorem report?_eq_none_iff (p q : Place) (s : Segment) :
    s.report? p = none ↔ s.report? q = none := by
  cases s <;> simp [report?]

end Segment

/-! ## The tokens -/

/-- The tokens of a source in front of its end. -/
def words (source : List Char) : List Token :=
  (Place.start.ofSegments (segments source)).filterMap fun (p, s) => s.token? p

theorem tokens_scan (source : List Char) :
    (scan source).tokens = words source ++ [Token.endOf source] := rfl

theorem kind_ne_eof_of_mem_words (h : t ∈ words source) : t.kind ≠ .eof := by
  obtain ⟨ts, hts, hne⟩ := scan_ends source
  exact hne t (List.append_cancel_right hts ▸ h)

/-- Two sources without reports, the second one on a new line behind the first one. -/
theorem scan_append_newline {cs more : List Char} (h : (scan cs).reports = []) :
    words (cs ++ '\n' :: more) =
        words cs ++ (words more).map (.down (Text.lines cs).length) ∧
      ((scan more).reports = [] → (scan (cs ++ '\n' :: more)).reports = []) := by
  have hsegments : segments (cs ++ '\n' :: more) = segments cs ++ .blank '\n' :: segments more := by
    refine segments_append_newline cs more fun text ht => ?_
    rw [← Place.map_snd_ofSegments .start (segments cs)] at ht
    obtain ⟨⟨p, s⟩, hp, rfl⟩ := List.mem_map.1 ht
    exact nomatch List.filterMap_eq_nil_iff.1 h _ hp
  have hplaced : Place.start.ofSegments (segments (cs ++ '\n' :: more)) =
      Place.start.ofSegments (segments cs) ++ (Place.start.after cs, .blank '\n') ::
        (Place.start.ofSegments (segments more)).map
          fun (q, s) => (q.down (Text.lines cs).length, s) := by
    rw [hsegments, Place.ofSegments_append, flatten_segments, Place.ofSegments_cons,
      ← Place.ofSegments_down, ← Place.after_newline]
    rfl
  constructor
  · rw [words, hplaced, List.filterMap_append, List.filterMap_cons_none rfl, List.filterMap_map,
      words, words, List.map_filterMap]
    congr 2
    funext ⟨q, s⟩
    exact s.token?_put (.down _) q
  · intro hmore
    rw [scan] at h hmore ⊢
    dsimp only at h hmore ⊢
    rw [hplaced, List.filterMap_append, h, List.filterMap_cons_none rfl, List.filterMap_map,
      List.nil_append, List.filterMap_eq_nil_iff]
    exact fun ⟨q, s⟩ hq => (s.report?_eq_none_iff q _).1 (List.filterMap_eq_nil_iff.1 hmore _ hq)

end LoxLang
