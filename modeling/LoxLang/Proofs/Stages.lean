import Mathlib.Data.List.Induction
import LoxLang.Proofs.Activations
import LoxLang.Proofs.Histories

/-!
# Stages

A stage of a session (`Stage`) is a machine with all that has happened to frames so far and the
trail of activations. Stages follow one another by steps and by new runs (`Stage.Later`), whichever
trees are run and wherever the runs are given up. What is so at one stage and was not so at the
start was brought about by a step between two earlier stages (`Stage.Met.brought`); that tells where
a store comes from (`Stage.Met.stored`) and where a frame comes from (`Stage.Met.made`). At every
stage the frames follow the trail (`Stage.Met.agrees`), and every moment of a session of acts is a
stage (`Moment.stage`).
-/

namespace LoxLang

namespace Machine

variable {P : Control → Prop} {m : Machine}

/-- Once everything that waits has been left, the globals are the current frame. -/
theorem Met.homeFrame (h : Met P m) : m.homeFrame = Heap.globals := by
  refine h.induct (Q := fun m => m.homeFrame = Heap.globals) (fun _ _ => rfl) (fun m s _ ih => ?_)
    fun _ _ _ ih _ => ih
  exact (leads_nil_iff.1 ((leads_nil_iff.2 rfl).step (.inl rfl))).trans ih

theorem Met.enclosing_globals (h : Met P m) :
    m.heap.frames.enclosing? Heap.globals = some none := by
  obtain ⟨task, -, h⟩ := h
  exact h.lastsIn.enclosing rfl

end Machine

/-- Each frame that is made is one event. -/
theorem Event.size_replay (es : List Event) (fs : Frames Value) :
    (replay es fs).all.size = (regions es).length + fs.all.size := by
  induction es generalizing fs with
  | nil => exact (Nat.zero_add _).symm
  | cons e es ih =>
    rw [replay_cons, ih]
    cases e with
    | made outer ρ =>
      simp [perform, Frames.make]
      omega
    | stored e => simp [perform, Frames.define]

/-- A machine of a session, with what has happened to frames so far and the activations around. -/
structure Stage where
  machine : Machine
  log : List Event
  trail : Trail

namespace Stage

/-- The start of the first run. -/
def start (task : Control) : Stage := ⟨Memory.initial.start task, [], {}⟩

def step (s : Setting) (x : Stage) : Stage :=
  ⟨x.machine.step s, x.log ++ x.machine.events, x.trail.next x.machine (x.machine.step s)⟩

/-- The start of a further run. -/
def next (task : Control) (x : Stage) : Stage :=
  ⟨x.machine.memory.start task, x.log, x.trail.outside⟩

/-- A stage that comes later in a session. All runs that start in between start with tasks of one
kind. -/
inductive Later (P : Control → Prop) (x : Stage) : Stage → Prop where
  | refl : Later P x x
  | step (s : Setting) : Later P x y → Later P x (y.step s)
  | next : Later P x y → P task → Later P x (y.next task)

/-- A stage of a session in which all runs start with tasks of one kind. -/
def Met (P : Control → Prop) (x : Stage) : Prop := ∃ task, P task ∧ (start task).Later P x

/-- A stage of a session at which a step is taken before another stage. -/
def Before (P : Control → Prop) (x y : Stage) : Prop := x.Met P ∧ ∃ s, (x.step s).Later P y

variable {P : Control → Prop} {x y z : Stage}

theorem Later.trans (h : x.Later P y) (h' : y.Later P z) : x.Later P z := by
  induction h' with
  | refl => exact h
  | step s _ ih => exact .step s ih
  | next _ ht ih => exact .next ih ht

theorem Later.machine (h : x.Later P y) : x.machine.Later P y.machine := by
  induction h with
  | refl => exact .refl
  | step s _ ih => exact .step s ih
  | next _ ht ih => exact .next ih ht

theorem Later.log (h : x.Later P y) : x.log <+: y.log := by
  induction h with
  | refl => exact List.prefix_rfl
  | step s _ ih => exact ih.trans (List.prefix_append ..)
  | next _ _ ih => exact ih

namespace Met

theorem later (h : x.Met P) (h' : x.Later P y) : y.Met P := by
  obtain ⟨task, ht, h⟩ := h
  exact ⟨task, ht, h.trans h'⟩

theorem machine (h : x.Met P) : x.machine.Met P := by
  obtain ⟨task, ht, h⟩ := h
  exact ⟨task, ht, h.machine⟩

/-- What starts, steps and new runs keep is so at every stage. -/
theorem induct {Q : Stage → Prop} (h : x.Met P) (start : ∀ task, P task → Q (start task))
    (step : ∀ x s, x.Met P → Q x → Q (x.step s))
    (next : ∀ x task, x.Met P → Q x → P task → Q (x.next task)) : Q x := by
  obtain ⟨task, ht, h⟩ := h
  induction h with
  | refl => exact start task ht
  | step s h ih => exact step _ s ⟨task, ht, h⟩ ih
  | next h ht' ih => exact next _ _ ⟨task, ht, h⟩ ih ht'

/-- What is so at a stage and not at the start was brought about by a step. -/
theorem brought {Q : Stage → Prop} (h : x.Met P) (hx : Q x) (start : ∀ task, ¬Q (start task))
    (next : ∀ y task, Q (y.next task) → Q y) :
    ∃ y s, y.Met P ∧ (y.step s).Later P x ∧ ¬Q y ∧ Q (y.step s) := by
  obtain ⟨task, ht, h⟩ := h
  induction h with
  | refl => exact absurd hx (start task)
  | @step y s h ih =>
    by_cases hy : Q y
    · obtain ⟨z, s', hz, hlater, hbrought⟩ := ih hy
      exact ⟨z, s', hz, .step s hlater, hbrought⟩
    · exact ⟨y, s, ⟨task, ht, h⟩, .refl, hy, hx⟩
  | next h ht' ih =>
    obtain ⟨z, s', hz, hlater, hbrought⟩ := ih (next _ _ hx)
    exact ⟨z, s', hz, .next hlater ht', hbrought⟩

/-- The frames follow the trail. -/
theorem agrees (h : x.Met P) : x.trail.Agrees x.machine :=
  h.induct (Q := fun x => x.trail.Agrees x.machine) (fun task _ => Trail.agrees_initial task)
    (fun _ s hx ih => ih.step hx.machine.inRange s)
    fun _ task hx ih _ => ih.start hx.machine.enclosing_globals hx.machine.homeFrame task

/-- The frames are what the events made of them. -/
theorem frames (h : x.Met P) :
    x.machine.heap.frames = Event.replay x.log Heap.initial.frames := by
  refine h.induct (Q := fun x => x.machine.heap.frames = Event.replay x.log Heap.initial.frames)
    (fun _ _ => rfl) (fun x s hx ih => ?_) fun _ _ _ ih _ => ih
  rw [step, Event.replay_append, ← ih]
  exact Machine.frames_step s fun _ => hx.machine.inRange.around.current

/-- There is a region for every frame. -/
theorem length_regions (h : x.Met P) :
    (Region.globals :: Event.regions x.log).length = x.machine.size := by
  rw [Machine.size, h.frames, Event.size_replay]
  rfl

end Met

namespace Before

theorem trans (h : x.Before P y) (h' : y.Before P z) : x.Before P z := by
  obtain ⟨hx, s, h⟩ := h
  obtain ⟨-, s', h'⟩ := h'
  exact ⟨hx, s, (Later.step s' h).trans h'⟩

theorem machine (h : x.Before P y) : ∃ s, (x.machine.step s).Later P y.machine := by
  obtain ⟨-, s, h⟩ := h
  exact ⟨s, h.machine⟩

theorem log (h : x.Before P y) : x.log ++ x.machine.events <+: y.log := by
  obtain ⟨-, s, h⟩ := h
  exact h.log

end Before

/-- A store on record was made by a step between two earlier stages. -/
theorem Met.stored {before after : List Event} (h : x.Met P)
    (hlog : x.log = before ++ .stored e :: after) :
    ∃ y : Stage, y.Before P x ∧ .stored e ∈ y.machine.events ∧ y.log <+: before ∧
      before ++ [.stored e] <+: y.log ++ y.machine.events := by
  obtain ⟨y, s, hy, hlater, hold, hnew⟩ := h.brought (Q := fun y => before.length < y.log.length)
    (by rw [hlog]; simp) (fun _ => Nat.not_lt_zero _) fun _ _ => id
  have hrecord : y.log ++ y.machine.events <+: x.log := hlater.log
  have hbefore : y.log <+: before :=
    List.prefix_of_prefix_length_le ((List.prefix_append ..).trans hrecord)
      ⟨_, hlog.symm⟩ (Nat.le_of_not_lt hold)
  have hstore : before ++ [.stored e] <+: y.log ++ y.machine.events :=
    List.prefix_of_prefix_length_le ⟨after, by simp [hlog]⟩ hrecord (by
      rw [List.length_append]
      exact hnew)
  refine ⟨y, ⟨hy, s, hlater⟩, ?_, hbefore, hstore⟩
  obtain ⟨mid, rfl⟩ := hbefore
  rw [List.append_assoc, List.prefix_append_right_inj] at hstore
  exact hstore.subset (List.mem_append_right _ List.mem_cons_self)

/-- A frame was made by a step between two earlier stages, for its region. -/
theorem Met.made (h : x.Met P) (hj : (Region.globals :: Event.regions x.log)[j]? = some ρ)
    (hne : j ≠ Heap.globals) :
    ∃ y : Stage, y.Before P x ∧ y.machine.size ≤ j ∧
      (Event.regions y.machine.events)[j - y.machine.size]? = some ρ := by
  have hlt := (List.getElem?_eq_some_iff.1 hj).1
  rw [h.length_regions] at hlt
  obtain ⟨y, s, hy, hlater, hold, hnew⟩ := h.brought (Q := fun y => j < y.machine.size) hlt
    (fun _ hj => hne (Nat.lt_one_iff.1 hj)) fun _ _ => id
  have hstep := hy.later (.step s .refl)
  obtain ⟨rest, hrest⟩ := hlater.log
  rw [← hstep.length_regions] at hnew
  rw [← hrest, Event.regions_append, ← List.cons_append, List.getElem?_append_left hnew, step,
    Event.regions_append, ← List.cons_append, List.getElem?_append_right, hy.length_regions] at hj
  · exact ⟨y, ⟨hy, s, hlater⟩, Nat.le_of_not_lt hold, hj⟩
  · rw [hy.length_regions]
    exact Nat.le_of_not_lt hold

/-- So many steps of a run. -/
theorem exists_later_run (s : Setting) (n : Nat) (x : Stage) :
    ∃ t, x.Later P ⟨x.machine.run s n, x.log ++ x.machine.eventsWithin s n, t⟩ := by
  induction n generalizing x with
  | zero => exact ⟨x.trail, by simpa [Machine.eventsWithin, Machine.run] using .refl⟩
  | succ n ih =>
    rw [Machine.run, Machine.eventsWithin]
    split
    · exact ⟨x.trail, by simpa using .refl⟩
    · obtain ⟨t, h⟩ := ih (x.step s)
      refine ⟨t, (Later.step s .refl).trans ?_⟩
      rw [← List.append_assoc]
      exact h

end Stage

/-! ## Sessions of acts -/

/-- What an act starts from is a stage of a session whose tasks are those of its acts. -/
theorem Session.stage_of_tasks {P : Control → Prop} (colored : Bool) (acts : List Act)
    (hP : ∀ before a later, acts = before ++ a :: later → ∀ cfg t,
      ((start colored).after before).task? a = some (cfg, t) → P t) (ht : P task) :
    ∃ t, Stage.Met P ⟨((start colored).after acts).memory.start task,
      (start colored).history acts, t⟩ := by
  induction acts using List.reverseRecOn generalizing task with
  | nil => exact ⟨{}, task, ht, .refl⟩
  | append_singleton acts a ih =>
    have hafter : (start colored).after (acts ++ [a]) = ((start colored).after acts).act a := by
      simp [after]
    have hacts : ∀ before b later, acts = before ++ b :: later → ∀ cfg t,
        ((start colored).after before).task? b = some (cfg, t) → P t := by
      rintro before b later rfl
      exact hP before b (later ++ [a]) (by simp)
    rw [hafter, history_append, memory_act, history, history, List.append_nil, events]
    cases htask : ((start colored).after acts).task? a with
    | none =>
      rw [List.append_nil]
      exact ih hacts ht
    | some t =>
      obtain ⟨cfg, task'⟩ := t
      obtain ⟨trail, hmet⟩ := ih hacts (hP acts a [] rfl cfg task' htask)
      obtain ⟨trail', hlater⟩ := Stage.exists_later_run (P := P) cfg.setting cfg.steps
        ⟨((start colored).after acts).memory.start task', (start colored).history acts, trail⟩
      exact ⟨_, hmet.later (.next hlater ht)⟩

/-- Every moment of a session of acts is a stage. -/
theorem Moment.stage {P : Control → Prop} (h : Moment colored acts a m log)
    (hP : ∀ b n, Act.Roots b n → P n.task) : ∃ t, Stage.Met P ⟨m, log, t⟩ := by
  obtain ⟨k, hmachine, rfl⟩ := h.met
  obtain ⟨⟨cfg, task⟩, ht, rfl⟩ := Option.map_eq_some_iff.1 hmachine
  have htask {before : List Act} {b : Act} {cfg : Config} {task : Control}
      (ht : ((Session.start colored).after before).task? b = some (cfg, task)) : P task := by
    obtain ⟨n, hn, rfl⟩ := Session.roots_of_task? ht
    exact hP b n hn
  obtain ⟨t, hmet⟩ := Session.stage_of_tasks colored acts (fun _ _ _ _ _ _ => htask) (htask ht)
  obtain ⟨t', hlater⟩ := Stage.exists_later_run (P := P) cfg.setting k
    ⟨((Session.start colored).after acts).memory.start task,
      (Session.start colored).history acts, t⟩
  rw [Session.eventsWithin, ht]
  exact ⟨t', hmet.later hlater⟩

end LoxLang
