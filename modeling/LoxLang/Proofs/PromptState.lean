import LoxLang.Proofs.EnteredLines
import LoxLang.Proofs.RejectedInputs

/-!
# The state of the prompt

Whatever lines it takes, the invitation says whether an input is pending, what is pending is the
text of an unfinished input, and what the log holds is about the input that was completed last
(`prompt_state_consistent`). There are four things that a line can do (`Prompt.Takes`): it is a word
of the prompt's own, it goes on with an input, it completes one, or it is the end of all input in
the middle of one. Everything else is read off them.
-/

namespace LoxLang

theorem Text.trimEnd_trimEnd (cs : List Char) : trimEnd (trimEnd cs) = trimEnd cs := by
  have happend := trimEnd_append (trimmed_trimEnd cs).last []
  rwa [List.append_nil, show trimEnd [] = [] from rfl, List.append_nil] at happend

namespace Session

/-- The session behind a guarded input, and what the input prints. -/
def handle (s : Session) : Input → Session × Array String
  | .run cfg path source => ((s.run cfg path source).guarded.2, (s.run cfg path source).printed)
  | .evaluate cfg path source =>
    ((s.evaluate cfg path source).guarded.2, (s.evaluate cfg path source).printed)

/-- Sessions that are alike handle an input alike. -/
theorem Alike.handle {s s' : Session} (h : s.Alike s') (i : Input) :
    (s'.handle i).2 = (s.handle i).2 ∧
      Session.Parallel s.log.shown s'.log.shown (s.handle i).1 (s'.handle i).1 := by
  cases i with
  | run cfg path source =>
    have hrun := h.run cfg path source
    exact ⟨hrun.printed, hrun.guarded.2⟩
  | evaluate cfg path source =>
    have hevaluate := h.evaluate cfg path source
    exact ⟨hevaluate.printed, hevaluate.guarded.2⟩

end Session

namespace Prompt

/-- The prompt behind lines, each of which is taken under limits of its own. -/
def behind (p : Prompt) (entered : List (Config × String)) : Prompt :=
  entered.foldl (fun p (cfg, line) => (p.take cfg line).prompt) p

/-- A line that is text for an input. While nothing is pending, blank lines and the prompt's own
words are not; then only the end of all input is not. -/
def Feeds (p : Prompt) (line : String) : Prop :=
  if p.pending = "" then String.ofList (Text.trim line.toList) ∉ ["", "help", "exit", endWord]
  else line ≠ endWord

instance (p : Prompt) (line : String) : Decidable (p.Feeds line) := by
  unfold Feeds
  infer_instance

/-- A line that stops the prompt. -/
def StoppedBy (p : Prompt) (line : String) : Prop :=
  if p.pending = "" then String.ofList (Text.trim line.toList) ∈ ["exit", endWord]
  else line = endWord

/-- The text of the input with another line. -/
def fed (p : Prompt) (line : String) : List Char := Text.trimEnd (p.pending ++ line).toList

/-- A text as an input of the prompt. -/
def judged (cfg : Config) (text : List Char) : Input :=
  if Line.isExpression text then .evaluate cfg path (String.ofList text)
  else .run cfg path (String.ofList text)

/-- The input that a line completes, if it does. At the end of all input that is what is pending. -/
def completed? (cfg : Config) (p : Prompt) (line : String) : Option Input :=
  if p.Feeds line then
    if Line.unfinished (p.fed line) then none else some (judged cfg (p.fed line))
  else if p.pending = "" then none
  else some (.run cfg path p.pending)

/-- The invitation fits what is pending, which is the text of an unfinished input. -/
structure Consistent (p : Prompt) : Prop where
  known : p.invitation ∈ [firstInvitation, nextInvitation]
  invitation : p.invitation = nextInvitation ↔ p.pending ≠ ""
  pending : p.pending ≠ "" → ∃ text, p.pending = String.ofList text ++ "\n" ∧ text ≠ [] ∧
    Text.trimEnd text = text ∧ Line.unfinished text = true

/-- A reaction to an input that is complete: it is handled once, and the log is about it alone. -/
structure Answers (p : Prompt) (i : Input) (r : Reaction) : Prop where
  pending : r.prompt.pending = ""
  handled : (r.prompt.session, r.printed) = p.session.reset.handle i
  /-- A session with an empty log and the same memory comes to the same reports and flags. -/
  alone : Session.Parallel "" p.session.log.shown
    (Session.handle ⟨.empty p.session.log.colored, p.session.memory⟩ i).1 r.prompt.session

/-! ## What a line does -/

/-- What the prompt does with a line. -/
inductive Takes (cfg : Config) (p : Prompt) (line : String) : Reaction → Prop where
  /-- It is a word of the prompt's own, or blank. -/
  | word {stop : Bool} {echo : String} (idle : p.pending = "") (own : ¬ p.Feeds line)
      (stops : stop = true ↔ p.StoppedBy line) : Takes cfg p line (p.say stop echo)
  /-- The input goes on. -/
  | goesOn (feeds : p.Feeds line) (unfinished : Line.unfinished (p.fed line) = true) :
      Takes cfg p line
        ({ p with
            invitation := nextInvitation
            pending := String.ofList (p.fed line) ++ "\n" }.say false "")
  /-- The input is complete. -/
  | completes (feeds : p.Feeds line) (finished : Line.unfinished (p.fed line) = false) :
      Takes cfg p line (p.submit cfg (String.ofList (p.fed line)))
  /-- The input is cut short. -/
  | abandons (waits : p.pending ≠ "") (ends : line = endWord) : Takes cfg p line (p.abandon cfg)

variable {cfg : Config} {p : Prompt} {line : String}

theorem takes_extend (h : p.Feeds line) : Takes cfg p line (p.extend cfg line) := by
  unfold extend
  dsimp only
  split
  · next hunfinished => exact .goesOn h hunfinished
  · next hfinished => exact .completes h (Bool.not_eq_true _ ▸ hfinished)

theorem takes_take (cfg : Config) (p : Prompt) (line : String) :
    Takes cfg p line (p.take cfg line) := by
  unfold take
  split
  · next hempty =>
    have hidle : p.pending = "" := String.isEmpty_iff.1 hempty
    have hfeeds : p.Feeds line ↔
        String.ofList (Text.trim line.toList) ∉ ["", "help", "exit", endWord] := by
      rw [Feeds, if_pos hidle]
    have hstopped : p.StoppedBy line ↔
        String.ofList (Text.trim line.toList) ∈ ["exit", endWord] := by
      rw [StoppedBy, if_pos hidle]
    generalize String.ofList (Text.trim line.toList) = word at hfeeds hstopped
    split
    case h_5 hblank hhelp hexit hend =>
      exact takes_extend (hfeeds.2 (by
        simp only [List.mem_cons, List.not_mem_nil, or_false, not_or]
        exact ⟨hblank, hhelp, hexit, hend⟩))
    all_goals exact .word hidle (by simp [hfeeds, endWord]) (by simp [hstopped, endWord])
  · next hempty =>
    have hwaits : p.pending ≠ "" := fun hnil => hempty (String.isEmpty_iff.2 hnil)
    split
    · next hend => exact .abandons hwaits hend
    · next hend => exact takes_extend (by rwa [Feeds, if_neg hwaits])

theorem Feeds.not_stoppedBy (h : p.Feeds line) : ¬ p.StoppedBy line := by
  unfold Feeds at h
  unfold StoppedBy
  split at h
  · next hidle =>
    rw [if_pos hidle]
    simp only [List.mem_cons, List.not_mem_nil, or_false, not_or] at h ⊢
    exact ⟨h.2.2.1, h.2.2.2⟩
  · next hwaits => rwa [if_neg hwaits]

theorem not_feeds_end (h : p.pending ≠ "") : ¬ p.Feeds endWord := by
  rw [Feeds, if_neg h]
  exact fun hne => hne rfl

theorem stop_submit (cfg : Config) (input : String) (p : Prompt) :
    (p.submit cfg input).stop = false := by
  unfold submit
  dsimp only
  split <;> rfl

theorem Takes.stop_iff (h : Takes cfg p line r) : r.stop = true ↔ p.StoppedBy line := by
  cases h with
  | word _ _ stops => exact stops
  | goesOn feeds => exact iff_of_false Bool.false_ne_true feeds.not_stoppedBy
  | completes feeds => exact iff_of_false (by simp [stop_submit]) feeds.not_stoppedBy
  | abandons waits ends => exact iff_of_true rfl (by rwa [StoppedBy, if_neg waits])

/-! ## What a line leaves -/

theorem Consistent.idle (s : Session) : Consistent ⟨s, firstInvitation, ""⟩ where
  known := List.mem_cons_self
  invitation := iff_of_false (by decide : firstInvitation ≠ nextInvitation) fun h => h rfl
  pending h := absurd rfl h

theorem consistent_submit (cfg : Config) (input : String) (p : Prompt) :
    (p.submit cfg input).prompt.Consistent := by
  unfold submit
  dsimp only
  split <;> exact .idle _

theorem Takes.consistent (h : Takes cfg p line r) (hp : p.Consistent) : r.prompt.Consistent := by
  cases h with
  | word => exact hp
  | goesOn _ unfinished =>
    have hpending : String.ofList (p.fed line) ++ "\n" ≠ "" := by simp
    exact {
      known := List.mem_cons_of_mem _ List.mem_cons_self
      invitation := iff_of_true rfl hpending
      pending _ := by
        refine ⟨p.fed line, rfl, fun hnil => ?_, Text.trimEnd_trimEnd _, unfinished⟩
        rw [hnil] at unfinished
        exact absurd unfinished (by decide) }
  | completes => exact consistent_submit ..
  | abandons => exact .idle _

theorem consistent_behind (hp : p.Consistent) (entered : List (Config × String)) :
    (p.behind entered).Consistent := by
  induction entered generalizing p with
  | nil => exact hp
  | cons first entered ih => exact ih ((takes_take first.1 p first.2).consistent hp)

/-! ## What a complete input gets -/

/-- In a log that was reset, an input is handled as in one that never held anything. -/
theorem Answers.of_handled (hpending : r.prompt.pending = "")
    (h : (r.prompt.session, r.printed) = p.session.reset.handle i) : p.Answers i r where
  pending := hpending
  handled := h
  alone := by
    have halike : Session.Alike ⟨.empty p.session.log.colored, p.session.memory⟩
        p.session.reset := ⟨⟨rfl, rfl, rfl, rfl⟩, rfl⟩
    have hparallel := (halike.handle i).2
    rwa [← h] at hparallel

theorem answers_submit (cfg : Config) (text : List Char) (p : Prompt) :
    p.Answers (judged cfg text) (p.submit cfg (String.ofList text)) := by
  refine .of_handled (pending_submit ..) ?_
  unfold submit judged
  rw [String.toList_ofList]
  dsimp only
  split <;> rfl

/-- A line gets an input handled if it completes one, and leaves the session alone otherwise. -/
theorem Takes.answers (h : Takes cfg p line r) :
    match p.completed? cfg line with
    | some i => p.Answers i r
    | none => r.prompt.session = p.session ∧ r.printed = #[] := by
  cases h with
  | word idle own =>
    rw [completed?, if_neg own, if_pos idle]
    exact ⟨rfl, rfl⟩
  | goesOn feeds unfinished =>
    rw [completed?, if_pos feeds, if_pos unfinished]
    exact ⟨rfl, rfl⟩
  | completes feeds finished =>
    rw [completed?, if_pos feeds, finished, if_neg Bool.false_ne_true]
    exact answers_submit ..
  | abandons waits ends =>
    rw [completed?, if_neg (ends ▸ not_feeds_end waits), if_neg waits]
    exact .of_handled rfl rfl

/-- Whatever lines the prompt has taken, behind the next one it invites to go on exactly if an input
is pending, and what is pending is a text without blanks at its end that calls for more. The line
stops the prompt only if it is the word for it, while nothing is pending, or the end of all input.
If it completes an input, nothing is pending behind it, and the input is handled once, with reports
and flags that are about it alone; otherwise the session stays as it is. -/
theorem prompt_state_consistent (colored : Bool) (entered : List (Config × String)) (cfg : Config)
    (line : String) :
    let p := (start colored).behind entered
    let r := p.take cfg line
    r.prompt.Consistent ∧ (r.stop = true ↔ p.StoppedBy line) ∧
      match p.completed? cfg line with
      | some i => p.Answers i r
      | none => r.prompt.session = p.session ∧ r.printed = #[] := by
  intro p r
  have htakes := takes_take cfg p line
  have hp : p.Consistent := consistent_behind (.idle _) entered
  exact ⟨htakes.consistent hp, htakes.stop_iff, htakes.answers⟩

/-- While an input is pending, the word for the end of all input is text if it has a blank before
it. -/
example : (⟨.start false, nextInvitation, "\x7b\n"⟩ : Prompt).Feeds " EOF" ∧
    (⟨.start false, nextInvitation, "\x7b\n"⟩ : Prompt).completed? (.standard 0) " EOF" = none := by
  decide +kernel

end Prompt
end LoxLang
