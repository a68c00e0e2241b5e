import LoxLang.Proofs.GrowingTexts
import LoxLang.Prompt

/-!
# Inputs over several lines

Every line of the prompt is put behind what is pending and the blanks at the end are taken away, so
the source that is submitted at last is not the text of the lines. Its tokens are, as long as no
line ends in a blank inside a string (`entered_lines_submitted`); such a blank is lost
(`entered_lines_lose_blanks`).
-/

namespace LoxLang

/-- The text of lines, put together with newlines. -/
def joined (lines : List String) : List Char := ("\n".intercalate lines).toList

/-- Lines that lose nothing of a string: where one ends inside a string, it is not empty and does
not end in a blank. -/
def KeepsStrings (lines : List String) : Prop :=
  ∀ front line back, lines = front ++ line :: back →
    (∃ r ∈ (scan (joined (front ++ [line]))).reports, r.message = unterminated) →
      ∃ c ∈ line.toList.getLast?, Text.isBlank c = false

namespace Prompt

/-- The prompt after lines. -/
def after (cfg : Config) (p : Prompt) (lines : List String) : Prompt :=
  lines.foldl (fun p line => (p.take cfg line).prompt) p

/-- Lines that are one input of the prompt: nothing is pending before the first line, which is
neither blank nor a command, and after the last one, but between them. -/
structure Enters (cfg : Config) (p : Prompt) (lines : List String) : Prop where
  idle : p.pending = ""
  first : ∃ line rest, lines = line :: rest ∧
    String.ofList (Text.trim line.toList) ∉ ["", "help", "exit", endWord]
  goesOn : endWord ∉ lines
  waits : ∀ k < lines.length, k ≠ 0 → (p.after cfg (lines.take k)).pending ≠ ""
  ends : (p.after cfg lines).pending = ""

/-! ## What is kept of lines -/

/-- A text that is kept is pending with a newline. -/
def pendingOf (text : List Char) : String := if text = [] then "" else String.ofList text ++ "\n"

/-- The prompt that goes on with a text. -/
def holding (p : Prompt) (text : List Char) : Prompt :=
  if text = [] then p
  else { p with invitation := nextInvitation, pending := String.ofList text ++ "\n" }

/-- The text that is kept after another line. -/
def keep (text : List Char) (line : String) : List Char :=
  Text.trimEnd (pendingOf text ++ line).toList

/-- The text that is kept after lines. -/
def kept (lines : List String) : List Char := lines.foldl keep []

end Prompt

/-- The first text is found to be what the second one is, or, if that one had something to lose, to
be less. -/
def Retains (t u : List Char) (all : Prop) : Prop :=
  solids t = solids u ∧ all ∨ (isOpen t = isOpen u ∧ weight t < weight u) ∧ ¬ all

namespace Retains

theorem append (h : Retains t u all) (hx : ∀ c ∈ x.head?, c = '\n') :
    Retains (t ++ x) (u ++ x) all := by
  rcases h with ⟨hsolids, hall⟩ | ⟨⟨hopen, hless⟩, hall⟩
  · exact .inl ⟨solids_append_congr hsolids hx, hall⟩
  · obtain ⟨k, o, hgrowth⟩ := exists_growth (isOpen u) hx
    obtain ⟨ht, hto⟩ := hgrowth t hopen
    obtain ⟨hu, huo⟩ := hgrowth u rfl
    exact .inr ⟨⟨hto.trans huo.symm, by omega⟩, hall⟩

theorem not_mem_quote {x : List Char} (hx : ∀ c ∈ x, Text.isBlank c) : '"' ∉ x :=
  fun hmem => absurd (hx _ hmem) (by decide)

/-- Blanks at the end are lost where a string is open. -/
theorem blanks (h : Retains t u all) (hx : ∀ c ∈ x, Text.isBlank c) :
    Retains t (u ++ x) (all ∧ (isOpen (u ++ x) = true → x = [])) := by
  cases hu : isOpen u with
  | false =>
    have hsolids := solids_append_blanks hu hx
    have hopen : isOpen (u ++ x) = isOpen u := by
      rw [isOpen_eq_any_solids, hsolids, ← isOpen_eq_any_solids]
    have hall : all ∧ (isOpen (u ++ x) = true → x = []) ↔ all :=
      and_iff_left fun h => by simp [hopen, hu] at h
    rwa [Retains, hall, hopen, weight, weight, hsolids]
  | true =>
    obtain ⟨hweight, hopen⟩ := grows_open hu (not_mem_quote hx)
    rcases h with ⟨hsolids, hall⟩ | ⟨⟨hopen', hless⟩, hall⟩
    · by_cases hnil : x = []
      · subst hnil
        rw [List.append_nil]
        exact .inl ⟨hsolids, hall, fun _ => rfl⟩
      · have ht : isOpen t = isOpen u := by
          rw [isOpen_eq_any_solids, hsolids, ← isOpen_eq_any_solids]
        have hpos := List.length_pos_iff.2 hnil
        have heq : weight t = weight u := by rw [weight, hsolids, weight]
        exact .inr ⟨⟨ht.trans (hu.trans hopen.symm), by omega⟩, fun hkept => hnil (hkept.2 hopen)⟩
    · exact .inr ⟨⟨hopen'.trans (hu.trans hopen.symm), by omega⟩, fun hkept => hall hkept.1⟩

end Retains

theorem isOpen_iff (source : List Char) :
    isOpen source = true ↔ ∃ r ∈ (scan source).reports, r.message = unterminated :=
  (scanned_ofSegments .start (decomposes_segments source)).any_isUnclosed

theorem keepsStrings_concat (lines : List String) (line : String) :
    KeepsStrings (lines ++ [line]) ↔ KeepsStrings lines ∧
      (isOpen (joined (lines ++ [line])) = true →
        ∃ c ∈ line.toList.getLast?, Text.isBlank c = false) := by
  constructor
  · refine fun h => ⟨fun front l back heq => ?_, fun hopen => ?_⟩
    · exact h front l (back ++ [line]) (by simp [heq])
    · exact h lines line [] rfl ((isOpen_iff _).1 hopen)
  · rintro ⟨h, hlast⟩ front l back heq hopen
    induction back using List.reverseRecOn with
    | nil =>
      obtain ⟨rfl, hl⟩ := List.append_inj' heq rfl
      obtain rfl : line = l := by simpa using hl
      exact hlast ((isOpen_iff _).2 hopen)
    | append_singleton back l' _ =>
      rw [← List.cons_append, ← List.append_assoc] at heq
      exact h front l back (List.append_inj' heq rfl).1 hopen

theorem joined_concat (h : lines ≠ []) (line : String) :
    joined (lines ++ [line]) = joined lines ++ '\n' :: line.toList := by
  rw [joined, String.intercalate_append_of_ne_nil h (List.cons_ne_nil _ _),
    String.intercalate_singleton, String.toList_append, String.toList_append, List.append_assoc]
  rfl

namespace Text

/-- Of what is put behind a text that does not end in a blank, the blanks at the end are taken
away. -/
theorem trimEnd_append (ht : ∀ c ∈ t.getLast?, isBlank c = false) (y : List Char) :
    trimEnd (t ++ y) = t ++ trimEnd y := by
  have hkeep : t.reverse.dropWhile isBlank = t.reverse := by
    cases hlast : t.reverse with
    | nil => rfl
    | cons c cs =>
      have hc : t.getLast? = some c := by rw [← List.head?_reverse, hlast, List.head?_cons]
      rw [List.dropWhile_cons_of_neg (by simp [ht c hc])]
  rw [trimEnd, List.reverse_append, List.dropWhile_append, trimEnd]
  split
  · next hnil => rw [hkeep, List.isEmpty_iff.1 hnil, List.reverse_reverse]; simp
  · rw [List.reverse_append, List.reverse_reverse]

/-- The blanks that are taken away at the end. -/
theorem exists_trimmed (y : List Char) :
    ∃ tail, y = trimEnd y ++ tail ∧ (∀ c ∈ tail, isBlank c) ∧
      (tail = [] ↔ ∀ c ∈ y.getLast?, isBlank c = false) := by
  obtain ⟨⟨tail, heq, htail⟩, hlast⟩ := trimmed_trimEnd y
  refine ⟨tail, heq, htail, fun hnil c hc => ?_, fun hvisible => ?_⟩
  · rw [heq, hnil, List.append_nil] at hc
    exact hlast c hc
  · by_contra hne
    have hc : y.getLast? = some (tail.getLast hne) := by
      rw [heq, List.getLast?_append_of_ne_nil _ hne, List.getLast?_eq_getLast_of_ne_nil hne]
    have hblank := htail _ (List.getLast_mem hne)
    exact absurd hblank (by simp [hvisible _ hc])

end Text

theorem Prompt.kept_concat (lines : List String) (line : String) :
    kept (lines ++ [line]) = keep (kept lines) line := by
  rw [kept, List.foldl_append]
  rfl

theorem Prompt.kept_visible (hne : kept lines ≠ []) :
    ∀ c ∈ (kept lines).getLast?, Text.isBlank c = false := by
  induction lines using List.reverseRecOn with
  | nil => exact absurd rfl hne
  | append_singleton lines line _ =>
    rw [kept_concat]
    exact (Text.trimmed_trimEnd _).last

/-- The text that is kept of lines, beside the text of the lines. -/
theorem retains_kept (hfirst : Text.trimEnd first.toList ≠ []) (rest : List String) :
    Retains (Prompt.kept (first :: rest)) (joined (first :: rest)) (KeepsStrings (first :: rest)) ∧
      Prompt.kept (first :: rest) ≠ [] := by
  induction rest using List.reverseRecOn with
  | nil =>
    have hkept : Prompt.kept [first] = Text.trimEnd first.toList := rfl
    have hjoined : joined [first] = first.toList := congrArg _ String.intercalate_singleton
    refine ⟨?_, hkept ▸ hfirst⟩
    obtain ⟨tail, heq, htail, hnil⟩ := Text.exists_trimmed first.toList
    have hsame : Retains (Text.trimEnd first.toList) (Text.trimEnd first.toList)
        (KeepsStrings []) := .inl ⟨rfl, fun _ _ _ h => absurd h (by simp)⟩
    have hne : first.toList ≠ [] := fun hnil => hfirst (by rw [hnil]; rfl)
    have hlast : (∀ c ∈ first.toList.getLast?, Text.isBlank c = false) ↔
        ∃ c ∈ first.toList.getLast?, Text.isBlank c = false := by
      rw [List.getLast?_eq_getLast_of_ne_nil hne]
      simp
    have hretains := hsame.blanks htail
    rw [← heq, hnil, hlast, ← hjoined] at hretains
    rw [hkept, show [first] = [] ++ [first] from rfl, keepsStrings_concat]
    exact hretains
  | append_singleton rest line ih =>
    obtain ⟨hretains, hne⟩ := ih
    obtain ⟨tail, heq, htail, hnil⟩ := Text.exists_trimmed ('\n' :: line.toList)
    have hkept : Prompt.kept (first :: (rest ++ [line])) =
        Prompt.kept (first :: rest) ++ Text.trimEnd ('\n' :: line.toList) := by
      rw [← List.cons_append, Prompt.kept_concat, Prompt.keep, Prompt.pendingOf, if_neg hne,
        ← Text.trimEnd_append (Prompt.kept_visible hne)]
      simp
    have hhead : ∀ c ∈ (Text.trimEnd ('\n' :: line.toList)).head?, c = '\n' := by
      intro c hc
      obtain ⟨more, hmore⟩ := List.head?_eq_some_iff.1 hc
      rw [hmore] at heq
      exact (List.cons.inj heq).1.symm
    have hlast : (∀ c ∈ ('\n' :: line.toList).getLast?, Text.isBlank c = false) ↔
        ∃ c ∈ line.toList.getLast?, Text.isBlank c = false := by
      rw [List.getLast?_cons]
      cases line.toList.getLast? with
      | none => simpa using (by decide : Text.isBlank '\n' = true)
      | some c => simp
    have hgrown := (hretains.append hhead).blanks htail
    rw [List.append_assoc, ← heq, hnil, hlast, ← hkept,
      ← joined_concat (List.cons_ne_nil _ _) line, List.cons_append] at hgrown
    refine ⟨?_, by simp [hkept, hne]⟩
    rw [← List.cons_append, keepsStrings_concat]
    exact hgrown

/-! ## What is pending -/

namespace Prompt

theorem after_concat (cfg : Config) (p : Prompt) (lines : List String) (line : String) :
    p.after cfg (lines ++ [line]) = ((p.after cfg lines).take cfg line).prompt := by
  rw [after, List.foldl_append]
  rfl

theorem pending_submit (cfg : Config) (input : String) (p : Prompt) :
    (p.submit cfg input).prompt.pending = "" := by
  unfold submit
  dsimp only
  split <;> rfl

/-- The prompt keeps the line for later or submits what it has kept with it. -/
theorem take_next {p : Prompt} (hp : p.pending = pendingOf text)
    (hfirst : text = [] → String.ofList (Text.trim line.toList) ∉ ["", "help", "exit", endWord])
    (hend : line ≠ endWord) :
    p.take cfg line =
      if Line.unfinished (keep text line) then
        { p with
          invitation := nextInvitation
          pending := String.ofList (keep text line) ++ "\n" }.say false ""
      else p.submit cfg (String.ofList (keep text line)) := by
  have hextend : p.extend cfg line = if Line.unfinished (keep text line) then
      { p with
        invitation := nextInvitation
        pending := String.ofList (keep text line) ++ "\n" }.say false ""
    else p.submit cfg (String.ofList (keep text line)) := by rw [extend, hp]; rfl
  rw [← hextend, take, if_neg hend]
  split
  · next hempty =>
    have hnil : text = [] := by
      by_contra hne
      simp [hp, pendingOf, hne] at hempty
    have hnone := hfirst hnil
    simp only [List.mem_cons, List.not_mem_nil, or_false, not_or, endWord] at hnone
    split <;> simp_all
  · rfl

theorem Enters.head_ne (h : Enters cfg p lines) (heq : lines = line :: rest) :
    Text.trimEnd line.toList ≠ [] := by
  intro hnil
  obtain ⟨line', rest', hlines, hline⟩ := h.first
  obtain ⟨rfl, -⟩ := List.cons.inj (heq.symm.trans hlines)
  obtain ⟨tail, htrim, htail, -⟩ := Text.exists_trimmed line.toList
  rw [hnil, List.nil_append] at htrim
  have hblank : line.toList.dropWhile Text.isBlank = [] :=
    List.dropWhile_eq_nil_iff.2 fun c hc => htail c (htrim ▸ hc)
  exact hline (by rw [Text.trim, hblank]; decide)

theorem Enters.kept_ne (h : Enters cfg p lines) (heq : lines = front ++ back) (hf : front ≠ []) :
    kept front ≠ [] := by
  cases front with
  | nil => exact absurd rfl hf
  | cons line rest => exact (retains_kept (h.head_ne heq) rest).2

theorem pending_holding {p : Prompt} (h : p.pending = "") (text : List Char) :
    (p.holding text).pending = pendingOf text := by
  unfold holding pendingOf
  split
  · exact h
  · rfl

/-- What a line of an input brings, when the text of the lines before it is pending. -/
theorem Enters.take_line (h : Enters cfg p lines) (heq : lines = front ++ line :: back)
    (hp : p.after cfg front = p.holding (kept front)) :
    (p.after cfg front).take cfg line =
      if Line.unfinished (kept (front ++ [line])) then
        (p.holding (kept (front ++ [line]))).say false ""
      else p.submit cfg (String.ofList (kept (front ++ [line]))) := by
  have hne : kept (front ++ [line]) ≠ [] := by
    have hsplit : lines = (front ++ [line]) ++ back := by simp [heq]
    exact h.kept_ne hsplit (by simp)
  have hfirst (hnil : kept front = []) :
      String.ofList (Text.trim line.toList) ∉ ["", "help", "exit", endWord] := by
    cases front with
    | nil =>
      obtain ⟨first, rest, hlines, hfirst⟩ := h.first
      obtain ⟨rfl, -⟩ : first = line ∧ rest = back := by simpa [heq] using hlines.symm
      exact hfirst
    | cons first rest => exact absurd hnil (h.kept_ne heq (List.cons_ne_nil _ _))
  have hgoesOn : line ≠ endWord := fun hend => h.goesOn (by simp [heq, hend])
  rw [hp, take_next (pending_holding h.idle _) hfirst hgoesOn, ← kept_concat, holding, holding,
    if_neg hne]
  by_cases hnil : kept front = []
  · rw [if_pos hnil]
  · rw [if_neg hnil]
    rfl

/-- Between the lines of an input, the text that is kept is pending and nothing else has changed. -/
theorem Enters.after_eq (h : Enters cfg p lines) (heq : lines = front ++ back) (hb : back ≠ []) :
    p.after cfg front = p.holding (kept front) := by
  induction front using List.reverseRecOn generalizing back with
  | nil => rfl
  | append_singleton front line ih =>
    have hcons : lines = front ++ line :: back := by rw [heq, List.append_assoc]; rfl
    have hwaits := h.waits (front ++ [line]).length
      (by simp [heq, List.length_pos_iff.2 hb]) (by simp)
    have htake : lines.take (front ++ [line]).length = front ++ [line] := by
      conv => lhs; rw [heq]
      exact List.take_left
    rw [htake] at hwaits
    rw [after_concat, h.take_line hcons (ih hcons (List.cons_ne_nil _ _))] at hwaits ⊢
    split
    · rfl
    · next hends =>
      rw [if_neg hends] at hwaits
      exact absurd (pending_submit ..) hwaits

end Prompt

/-! ## What is submitted -/

/-- Where no string is open, what has been found weighs as much as the lexemes. -/
theorem weight_eq_of_closed (h : isOpen source = false) :
    weight source = (((words source).map Token.content).flatMap (·.2.1.toList)).length := by
  rw [content_words, weight, solids]
  rw [isOpen] at h
  generalize segments source = ss at h
  induction ss with
  | nil => rfl
  | cons s ss ih =>
    rw [List.any_cons, Bool.or_eq_false_iff] at h
    have hrest := ih h.2
    cases s with
    | lexeme kind text literal =>
      have hcontent : (Segment.lexeme kind text literal).content? =
          some (kind, String.ofList text, literal) := rfl
      rw [List.filter_cons_of_pos rfl, List.filterMap_cons_some hcontent, List.flatMap_cons,
        List.flatMap_cons, List.length_append, List.length_append, hrest, String.toList_ofList]
      rfl
    | unclosed => cases h.1
    | blank | comment | stray =>
      rwa [List.filter_cons_of_neg Bool.false_ne_true, List.filterMap_cons_none rfl]

theorem content_words_eq (source : List Char) :
    (words source).map Token.content = (solids source).filterMap Segment.content? := by
  rw [content_words, solids, List.filterMap_filter]
  congr 1
  funext s
  cases s <;> rfl

theorem isOpen_of_finished (h : Line.unfinished source = false) : isOpen source = false := by
  have hopen := (decomposes_segments source).leavesOpen 0
  rw [Line.unfinished] at h
  rw [h, eq_comm, Bool.or_eq_false_iff] at hopen
  exact hopen.1

/-- Lines that are one input of the prompt are submitted as the text that is kept of them. Its
tokens say what those of the joined lines say, exactly if the lines lose nothing of a string. -/
theorem entered_lines_submitted {p : Prompt} (h : p.Enters cfg lines) :
    (∃ front line, lines = front ++ [line] ∧ (p.after cfg front).take cfg line =
        p.submit cfg (String.ofList (Prompt.kept lines))) ∧
      ((scan (Prompt.kept lines)).tokens.map Token.content =
          (scan (joined lines)).tokens.map Token.content ↔ KeepsStrings lines) := by
  obtain ⟨first, rest, hlines, -⟩ := h.first
  have hne : lines ≠ [] := hlines ▸ List.cons_ne_nil _ _
  obtain ⟨front, line, hfront⟩ : ∃ front line, lines = front ++ [line] :=
    ⟨_, _, (List.dropLast_concat_getLast hne).symm⟩
  have hline := h.take_line hfront (h.after_eq hfront (List.cons_ne_nil _ _))
  rw [← hfront] at hline
  have hkept : Prompt.kept lines ≠ [] := h.kept_ne (List.append_nil _).symm hne
  have hfinished : Line.unfinished (Prompt.kept lines) = false := by
    by_contra hgoes
    have hends := h.ends
    rw [hfront, Prompt.after_concat, hline, if_pos (Bool.not_eq_false _ ▸ hgoes)] at hends
    simp [Prompt.say, Prompt.holding, hkept] at hends
  rw [hfinished, if_neg Bool.false_ne_true] at hline
  refine ⟨⟨front, line, hfront, hline⟩, ?_⟩
  have hretains := (retains_kept (h.head_ne hlines) rest).1
  rw [← hlines] at hretains
  have hclosed := isOpen_of_finished hfinished
  rw [tokens_scan, tokens_scan, List.map_append, List.map_append]
  refine Iff.trans (b := (words (Prompt.kept lines)).map Token.content =
    (words (joined lines)).map Token.content) ⟨fun heq => List.append_cancel_right heq,
      fun heq => congrArg (· ++ _) heq⟩ ?_
  rcases hretains with ⟨hsolids, hall⟩ | ⟨⟨hopen, hless⟩, hall⟩
  · rw [content_words_eq, content_words_eq, hsolids]
    exact iff_of_true rfl hall
  · refine iff_of_false (fun heq => ?_) hall
    rw [weight_eq_of_closed hclosed, weight_eq_of_closed (hopen ▸ hclosed), heq] at hless
    exact absurd hless (Nat.lt_irrefl _)

/-- An empty line in parentheses, a string over two lines and a comment with a quote. -/
theorem entered_lines_submitted_of_string :
    (scan (Prompt.kept ["print ( ", "", "\"a", "b\" // ( \"", ") ;"])).tokens.map Token.content =
      (scan (joined ["print ( ", "", "\"a", "b\" // ( \"", ") ;"])).tokens.map Token.content := by
  have h : Prompt.Enters (.standard 0) (.start false)
      ["print ( ", "", "\"a", "b\" // ( \"", ") ;"] :=
    ⟨rfl, ⟨_, _, rfl, by decide +kernel⟩, by decide +kernel, by decide +kernel, by decide +kernel⟩
  have hkeeps : KeepsStrings
      ([] ++ ["print ( "] ++ [""] ++ ["\"a"] ++ ["b\" // ( \""] ++ [") ;"]) := by
    simp only [keepsStrings_concat]
    have hnone : KeepsStrings [] := fun _ _ _ heq => absurd heq (by simp)
    refine ⟨⟨⟨⟨⟨hnone, fun hopen => ?_⟩, fun hopen => ?_⟩, fun _ => ?_⟩, fun hopen => ?_⟩,
      fun hopen => ?_⟩
    case refine_3 => exact ⟨'a', by decide +kernel, by decide⟩
    all_goals exact absurd hopen (by decide +kernel)
  exact (entered_lines_submitted h).2.2 hkeeps

/-- Blanks at the end of a line inside a string are not submitted. -/
theorem entered_lines_lose_blanks :
    Prompt.Enters (.standard 0) (.start false) ["print \"a  ", "b\";"] ∧
      ((Prompt.start false).after (.standard 0) ["print \"a  "]).take (.standard 0) "b\";" =
        (Prompt.start false).submit (.standard 0) "print \"a\nb\";" ∧
      (scan "print \"a\nb\";".toList).tokens.map Token.content ≠
        (scan (joined ["print \"a  ", "b\";"])).tokens.map Token.content := by
  have h : Prompt.Enters (.standard 0) (.start false) ["print \"a  ", "b\";"] :=
    ⟨rfl, ⟨_, _, rfl, by decide +kernel⟩, by decide +kernel, by decide +kernel, by decide +kernel⟩
  have hkept : Prompt.kept ["print \"a  ", "b\";"] = "print \"a\nb\";".toList := by decide +kernel
  refine ⟨h, ?_, by decide +kernel⟩
  have hlines : ["print \"a  ", "b\";"] = ["print \"a  "] ++ ["b\";"] := rfl
  have hline := h.take_line hlines (h.after_eq hlines (List.cons_ne_nil _ _))
  rw [List.singleton_append, hkept, if_neg (by decide +kernel)] at hline
  exact hline

end LoxLang
