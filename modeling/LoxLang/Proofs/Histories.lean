import Mathlib.Data.List.Induction
import LoxLang.Session
import LoxLang.Proofs.LimitedWalks
import LoxLang.Proofs.Reading
import LoxLang.Proofs.Stores

/-!
# Histories of sessions

A session is used by acts in any order, with any sources and limits (`Session.act`); between two
acts its memory holds what accepted programs left behind, also those whose runs failed or were
interrupted. A `Moment` is a machine met in one of the acts, with all that happened to frames before
it; at every moment the machine is sound (`Moment.sound`), and its frames are what the events have
made of them (`Moment.frames`).
-/

namespace LoxLang

/-- One use of a session. A guarded one has its escape absorbed by the log. -/
inductive Act where
  | run (guarded : Bool) (cfg : Config) (path source : String)
  | evaluate (guarded : Bool) (cfg : Config) (path source : String)
  | tokens (path source : String)
  | reset

/-- The session behind a conduct, whose escape is absorbed or not. -/
def Conduct.settle (guarded : Bool) (c : Conduct α) : Session :=
  if guarded then c.guarded.2 else c.session

namespace Session

def act (s : Session) : Act → Session
  | .run guarded cfg path source => (s.run cfg path source).settle guarded
  | .evaluate guarded cfg path source => (s.evaluate cfg path source).settle guarded
  | .tokens path source => (s.tokens path source).2
  | .reset => s.reset

/-- The session after some acts. -/
def after (s : Session) (acts : List Act) : Session := acts.foldl act s

end Session

/-- The reports on a source before its program runs. -/
def programReports (room : Nat) (source : String) (program : List Stmt) : List Report :=
  (scan source.toList).reports ++
    (Grammar.readProgram room (scan source.toList).tokens).reports ++ (resolveProgram program).2

/-- The reports on a source before its expression is evaluated. -/
def expressionReports (room : Nat) (source : String) (e : Expr) : List Report :=
  (scan source.toList).reports ++
    (Grammar.readExpression room (scan source.toList).tokens).reports ++ (resolveExpression e).2

/-- A source that passes scanning, reading and resolving as a program, without any report. -/
structure ProgramAccepted (room levels : Nat) (source : String) (program : List Stmt) : Prop where
  read : (Grammar.readProgram room (scan source.toList).tokens).value? = some program
  walked : (walkProgram levels program).stopped = false
  reports : programReports room source program = []

/-- A source that passes scanning, reading and resolving as an expression, without any report. -/
structure ExpressionAccepted (room levels : Nat) (source : String) (e : Expr) : Prop where
  read : (Grammar.readExpression room (scan source.toList).tokens).value? = some (some e)
  walked : (walkExpression levels e).stopped = false
  reports : expressionReports room source e = []

/-- An act has this root to run, and nothing that is reported on it keeps it from being run. -/
inductive Act.Roots : Act → Node → Prop where
  | run : ProgramAccepted cfg.room cfg.levels source program →
      Roots (.run guarded cfg path source) (.stmts program)
  | evaluate : ExpressionAccepted cfg.room cfg.levels source e →
      Roots (.evaluate guarded cfg path source) (.expr e)

/-- What is visited in the accepted sources of some acts. -/
def VisitedIn (acts : List Act) : Node → Site → Prop := Visited fun n => ∃ a ∈ acts, a.Roots n

/-- The first task of the run of a root. -/
def Node.task : Node → Control
  | stmts ss => .run (Site.topLevel.stmts ss)
  | expr e => .eval (Site.topLevel.expr e)
  | _ => .value .nil

namespace Session

/-- The task that an act runs in a session, if it gets so far. -/
def task? (s : Session) : Act → Option (Config × Control)
  | .run _ cfg _ source =>
    match (Grammar.readProgram cfg.room (scan source.toList).tokens).value? with
    | none => none
    | some program =>
      if s.log.hadError || (walkProgram cfg.levels program).stopped ||
          !(programReports cfg.room source program).isEmpty then none
      else some (cfg, (Node.stmts program).task)
  | .evaluate _ cfg _ source =>
    match (Grammar.readExpression cfg.room (scan source.toList).tokens).value? with
    | some (some e) =>
      if s.log.hadError || (walkExpression cfg.levels e).stopped ||
          !(expressionReports cfg.room source e).isEmpty then none
      else some (cfg, (Node.expr e).task)
    | _ => none
  | _ => none

/-- What an act does to frames. -/
def events (s : Session) (a : Act) : List Event :=
  match s.task? a with
  | none => []
  | some (cfg, task) => (s.memory.start task).eventsWithin cfg.setting cfg.steps

/-- What acts do to frames, one after the other. -/
def history (s : Session) : List Act → List Event
  | [] => []
  | a :: acts => s.events a ++ (s.act a).history acts

end Session

/-! ## The memory after an act -/

namespace Session

theorem memory_settle (guarded : Bool) (c : Conduct α) :
    (c.settle guarded).memory = c.session.memory := by
  unfold Conduct.settle Conduct.guarded
  split
  · split <;> rfl
  · rfl

theorem memory_conclude (r : Run) (s : Session) : (s.conclude r).session.memory = r.memory := by
  unfold conclude
  split <;> rfl

theorem memory_run (s : Session) (guarded : Bool) (cfg : Config) (path source : String) :
    (s.run cfg path source).session.memory =
      match s.task? (.run guarded cfg path source) with
      | none => s.memory
      | some (cfg, task) => (s.memory.perform cfg.setting cfg.steps task).memory := by
  simp only [run, scanSource, task?, programReports]
  cases (Grammar.readProgram cfg.room (scan source.toList).tokens).value? with
  | none => rfl
  | some program =>
    simp only [report, Log.hadError_complainAll, Log.register]
    cases hw : (walkProgram cfg.levels program).stopped with
    | true => simp only [Bool.or_true, Bool.true_or, if_true]; split <;> rfl
    | false =>
      obtain ⟨htree, hreports⟩ := walkProgram_eq hw
      simp only [htree, hreports, Bool.false_eq_true, if_false, Bool.or_false]
      split
      · next h => rw [if_pos (by simp at h ⊢; grind)]; rfl
      · split
        · next h => rw [if_pos (by simp at h ⊢; grind)]; rfl
        · next h => rw [if_neg (by simp at h ⊢; grind)]; exact memory_conclude ..

theorem memory_evaluate (s : Session) (guarded : Bool) (cfg : Config) (path source : String) :
    (s.evaluate cfg path source).session.memory =
      match s.task? (.evaluate guarded cfg path source) with
      | none => s.memory
      | some (cfg, task) => (s.memory.perform cfg.setting cfg.steps task).memory := by
  simp only [evaluate, scanSource, task?, expressionReports]
  match (Grammar.readExpression cfg.room (scan source.toList).tokens).value? with
  | none | some none => rfl
  | some (some e) =>
    simp only [report, Log.hadError_complainAll, Log.register]
    cases hw : (walkExpression cfg.levels e).stopped with
    | true => simp only [Bool.or_true, Bool.true_or, if_true]; split <;> rfl
    | false =>
      obtain ⟨htree, hreports⟩ := walkExpression_eq hw
      simp only [htree, hreports, Bool.false_eq_true, if_false, Bool.or_false]
      split
      · next h => rw [if_pos (by simp at h ⊢; grind)]; rfl
      · split
        · next h => rw [if_pos (by simp at h ⊢; grind)]; rfl
        · next h => rw [if_neg (by simp at h ⊢; grind)]; exact memory_conclude ..

/-- An act leaves the memory that its task leaves, if there is one. -/
theorem memory_act (s : Session) (a : Act) :
    (s.act a).memory =
      match s.task? a with
      | none => s.memory
      | some (cfg, task) => (s.memory.perform cfg.setting cfg.steps task).memory := by
  cases a with
  | run guarded cfg path source => exact (memory_settle ..).trans (memory_run ..)
  | evaluate guarded cfg path source => exact (memory_settle ..).trans (memory_evaluate ..)
  | tokens | reset => rfl

/-- What an act runs is one of its roots. -/
theorem roots_of_task? {s : Session} (h : s.task? a = some (cfg, task)) :
    ∃ n, a.Roots n ∧ task = n.task := by
  cases a with
  | run guarded cfg' path source =>
    simp only [task?] at h
    split at h
    · cases h
    · next program hread =>
      split at h
      · cases h
      · next hclean =>
        cases h
        simp only [Bool.or_eq_true, not_or, Bool.not_eq_true, Bool.not_eq_false',
          List.isEmpty_iff] at hclean
        exact ⟨_, .run ⟨hread, hclean.1.2, hclean.2⟩, rfl⟩
  | evaluate guarded cfg' path source =>
    simp only [task?] at h
    split at h
    · next e hread =>
      split at h
      · cases h
      · next hclean =>
        cases h
        simp only [Bool.or_eq_true, not_or, Bool.not_eq_true, Bool.not_eq_false',
          List.isEmpty_iff] at hclean
        exact ⟨_, .evaluate ⟨hread, hclean.1.2, hclean.2⟩, rfl⟩
    · cases h
  | tokens | reset => cases h

end Session

/-! ## Soundness over a history -/

/-- A root has no violations: each would be reported. -/
theorem Act.Roots.fits (h : Act.Roots a n) : Fits n .topLevel := by
  cases h with
  | run h =>
    have hwf := Grammar.readProgram_wellFormed (scan_spelled _) h.read
    exact fits_program hwf (List.append_eq_nil_iff.1 h.reports).2
  | evaluate h =>
    have hwf := Grammar.readExpression_wellFormed (scan_spelled _) h.read
    exact fits_expression hwf (List.append_eq_nil_iff.1 h.reports).2

theorem walked_visitedIn (acts : List Act) : Walked (VisitedIn acts) :=
  Visited.walked fun _ ⟨_, _, h⟩ => h.fits

/-- A root starts soundly in the frame of the globals. -/
theorem sound_start {mem : Memory} (hh : HeapOk V R mem.heap) (hf : mem.frame = Heap.globals)
    (hn : V n .topLevel) (hr : Act.Roots a n) : Sound V R (mem.start n.task) := by
  refine ⟨hh, ?_⟩
  obtain ⟨bs, hbs⟩ := hh.globals
  have hat : At R mem.heap mem.frame .topLevel := by
    rw [hf]
    exact .globals hbs
  cases hr with
  | run => exact .run hn hat (.bottom rfl)
  | evaluate => exact .eval hn hat (.bottom rfl)

/-- A memory between two acts, with what happened to its frames so far. -/
structure Remembers (V : Node → Site → Prop) (log : List Event) (mem : Memory) : Prop where
  heap : HeapOk V (.globals :: Event.regions log) mem.heap
  frame : mem.frame = Heap.globals
  frames : mem.heap.frames = Event.replay log Heap.initial.frames
  traced : AllTraced V (.globals :: Event.regions log) log

namespace Remembers

variable {V : Node → Site → Prop} {log : List Event} {mem : Memory}

theorem initial : Remembers V [] .initial where
  heap := by
    exact {
      size := rfl
      globals := ⟨_, rfl⟩
      region := rfl
      values := fun h => (Heap.clock_of_initial h).2 ▸ trivial
      supers := by
        intro i name fs h
        cases i with
        | zero => cases h
        | succ i => cases h
      methods := nofun
      fields := nofun }
  frame := rfl
  frames := rfl
  traced := .nil

/-- A root starts soundly. -/
theorem start (hm : Remembers V log mem) (hn : V n .topLevel) (hr : Act.Roots a n) :
    Sound V (.globals :: Event.regions log) (mem.start n.task) :=
  sound_start hm.heap hm.frame hn hr

theorem perform (hw : Walked V) (hm : Remembers V log mem) (hn : V n .topLevel)
    (hr : Act.Roots a n) (s : Setting) (steps : Nat) :
    Remembers V (log ++ (mem.start n.task).eventsWithin s steps)
      (mem.perform s steps n.task).memory := by
  have hstart := hm.start hn hr
  exact {
    heap := by
      rw [Event.regions_append, ← List.cons_append]
      exact (hstart.run hw s steps).heap
    frame := (Machine.homeFrame_run ..).trans hm.frame
    frames := by
      rw [Event.replay_append, ← hm.frames]
      exact hstart.frames_run hw s steps
    traced := by
      rw [Event.regions_append, ← List.cons_append]
      exact .append (hm.traced.more _) (.eventsWithin hstart hw s steps) }

theorem act (hw : Walked V) {s : Session} (hm : Remembers V log s.memory)
    (hV : ∀ n, a.Roots n → V n .topLevel) :
    Remembers V (log ++ s.events a) (s.act a).memory := by
  rw [Session.memory_act, Session.events]
  cases ht : s.task? a with
  | none => simpa using hm
  | some t =>
    obtain ⟨cfg, task⟩ := t
    obtain ⟨n, hn, rfl⟩ := Session.roots_of_task? ht
    exact hm.perform hw (hV n hn) hn _ _

theorem after (hw : Walked V) {s : Session} (hm : Remembers V log s.memory)
    (hV : ∀ a ∈ acts, ∀ n, a.Roots n → V n .topLevel) :
    Remembers V (log ++ s.history acts) (s.after acts).memory := by
  induction acts generalizing s log with
  | nil => simpa [Session.history, Session.after] using hm
  | cons a acts ih =>
    obtain ⟨ha, hacts⟩ := List.forall_mem_cons.1 hV
    rw [Session.history, ← List.append_assoc]
    exact ih (hm.act hw ha) hacts

end Remembers

theorem visitedIn_root {acts : List Act} (ha : a ∈ acts) (hn : a.Roots n) :
    VisitedIn acts n .topLevel := .root ⟨a, ha, hn⟩

/-- The memory after some acts, which more acts may follow. -/
theorem Session.remembers_after (colored : Bool) (acts more : List Act) :
    Remembers (VisitedIn (acts ++ more)) ((start colored).history acts)
      ((start colored).after acts).memory := by
  have hinitial : Remembers (VisitedIn (acts ++ more)) [] (start colored).memory := .initial
  exact hinitial.after (walked_visitedIn _) fun a ha n hn =>
    visitedIn_root (List.mem_append_left _ ha) hn

/-! ## Moments -/

/-- The machine after so many steps of the task of an act, if it has one. -/
def Session.machine? (s : Session) (a : Act) (n : Nat) : Option Machine :=
  (s.task? a).map fun (cfg, task) => (s.memory.start task).run cfg.setting n

/-- What so many steps of the task of an act do to frames. -/
def Session.eventsWithin (s : Session) (a : Act) (n : Nat) : List Event :=
  match s.task? a with
  | none => []
  | some (cfg, task) => (s.memory.start task).eventsWithin cfg.setting n

/-- A machine that is met while an act runs after others, with all that happened to frames since the
session started. -/
structure Moment (colored : Bool) (acts : List Act) (a : Act) (m : Machine) (log : List Event) :
    Prop where
  met : ∃ n, ((Session.start colored).after acts).machine? a n = some m ∧
    log = (Session.start colored).history acts ++
      ((Session.start colored).after acts).eventsWithin a n

namespace Moment

/-- A moment at which a machine passes a test. -/
theorem exists_of_any {p : Machine → Bool}
    (h : (((Session.start colored).after acts).machine? a k).any p) :
    ∃ m log, Moment colored acts a m log ∧ p m := by
  obtain ⟨m, hm, hp⟩ := (Option.any_eq_true _ _).1 h
  exact ⟨m, _, ⟨k, hm, rfl⟩, hp⟩

/-- The memory that an act starts from, and its task. -/
theorem start (h : Moment colored acts a m log) :
    ∃ setting task k mem before, m = (Memory.start mem task).run setting k ∧
      log = before ++ (mem.start task).eventsWithin setting k ∧
      Remembers (VisitedIn (acts ++ [a])) before mem ∧
      Sound (VisitedIn (acts ++ [a])) (.globals :: Event.regions before) (mem.start task) := by
  obtain ⟨k, hmachine, rfl⟩ := h.met
  have hm := Session.remembers_after colored acts [a]
  obtain ⟨⟨cfg, task⟩, ht, rfl⟩ := Option.map_eq_some_iff.1 hmachine
  obtain ⟨n, hn, rfl⟩ := Session.roots_of_task? ht
  rw [Session.eventsWithin, ht]
  exact ⟨cfg.setting, _, k, _, _, rfl, rfl, hm, hm.start (visitedIn_root (by simp) hn) hn⟩

/-- At every moment the machine is sound. -/
theorem sound (h : Moment colored acts a m log) :
    Sound (VisitedIn (acts ++ [a])) (.globals :: Event.regions log) m := by
  obtain ⟨setting, task, k, mem, before, rfl, rfl, -, hstart⟩ := h.start
  rw [Event.regions_append, ← List.cons_append]
  exact hstart.run (walked_visitedIn _) setting k

/-- At every moment the frames are what the events made of them. -/
theorem frames (h : Moment colored acts a m log) :
    m.heap.frames = Event.replay log Heap.initial.frames := by
  obtain ⟨setting, task, k, mem, before, rfl, rfl, hm, hstart⟩ := h.start
  rw [Event.replay_append, ← hm.frames]
  exact hstart.frames_run (walked_visitedIn _) setting k

/-- At every moment all stores so far are traced. -/
theorem traced (h : Moment colored acts a m log) :
    AllTraced (VisitedIn (acts ++ [a])) (.globals :: Event.regions log) log := by
  obtain ⟨setting, task, k, mem, before, rfl, rfl, hm, hstart⟩ := h.start
  rw [Event.regions_append, ← List.cons_append]
  exact .append (hm.traced.more _) (.eventsWithin hstart (walked_visitedIn _) setting k)

end Moment

/-! ## What endures -/

/-- Something about the acts of a session, the events so far and the heap that is so at the start,
that more acts do not change, and that is kept by every step that is taken in the session. -/
structure Endures (colored : Bool) (Q : List Act → List Event → Heap → Prop) : Prop where
  initial : Q [] [] Heap.initial
  more {acts : List Act} {a : Act} {log : List Event} {h : Heap} :
    Q acts log h → Q (acts ++ [a]) log h
  step {acts : List Act} {a : Act} {m : Machine} {log : List Event} :
    Moment colored acts a m log → Q (acts ++ [a]) log m.heap →
      ∀ s, Q (acts ++ [a]) (log ++ m.events) (m.step s).heap

theorem Machine.keeps_run {Met : Machine → List Event → Prop} {Q : List Event → Heap → Prop}
    (step : ∀ {m log}, Met m log → Q log m.heap → ∀ s, Q (log ++ m.events) (m.step s).heap)
    {m : Machine} (hq : Q log m.heap) {s : Setting}
    (hmet : ∀ k, Met (m.run s k) (log ++ m.eventsWithin s k)) (n : Nat) :
    Q (log ++ m.eventsWithin s n) (m.run s n).heap := by
  induction n generalizing m log with
  | zero => simpa [eventsWithin, run] using hq
  | succ n ih =>
    rw [run, eventsWithin]
    split
    · simpa using hq
    · next hlive =>
      have hmet₀ : Met m log := by simpa [eventsWithin, run] using hmet 0
      rw [← List.append_assoc]
      refine ih (step hmet₀ hq s) fun k => ?_
      have hk := hmet (k + 1)
      rwa [run, if_neg hlive, eventsWithin, if_neg hlive, ← List.append_assoc] at hk

theorem Session.history_append (s : Session) (acts more : List Act) :
    s.history (acts ++ more) = s.history acts ++ (s.after acts).history more := by
  induction acts generalizing s with
  | nil => rfl
  | cons a acts ih => rw [List.cons_append, history, history, ih, List.append_assoc]; rfl

namespace Endures

variable {Q : List Act → List Event → Heap → Prop}

/-- While an act runs after others, what was so between them still is. -/
theorem run (hq : Endures colored Q)
    (h : Q acts ((Session.start colored).history acts)
      ((Session.start colored).after acts).memory.heap)
    (ht : ((Session.start colored).after acts).task? a = some (cfg, task)) (n : Nat) :
    let m := ((Session.start colored).after acts).memory.start task
    Q (acts ++ [a]) ((Session.start colored).history acts ++ m.eventsWithin cfg.setting n)
      (m.run cfg.setting n).heap := by
  intro m
  have hmet (k : Nat) : Moment colored acts a (m.run cfg.setting k)
      ((Session.start colored).history acts ++ m.eventsWithin cfg.setting k) :=
    ⟨k, by rw [Session.machine?, ht]; rfl, by rw [Session.eventsWithin, ht]⟩
  exact Machine.keeps_run hq.step (hq.more h) hmet n

theorem after (hq : Endures colored Q) (acts : List Act) :
    Q acts ((Session.start colored).history acts)
      ((Session.start colored).after acts).memory.heap := by
  induction acts using List.reverseRecOn with
  | nil => exact hq.initial
  | append_singleton acts a ih =>
    have hafter : (Session.start colored).after (acts ++ [a]) =
        ((Session.start colored).after acts).act a := by
      simp [Session.after]
    rw [hafter, Session.history_append, Session.memory_act, Session.history, Session.history,
      List.append_nil, Session.events]
    cases ht : ((Session.start colored).after acts).task? a with
    | none =>
      rw [List.append_nil]
      exact hq.more ih
    | some t => exact hq.run ih ht t.1.steps

/-- What endures is so at every moment. -/
theorem moment (hq : Endures colored Q) (h : Moment colored acts a m log) :
    Q (acts ++ [a]) log m.heap := by
  obtain ⟨n, hm, rfl⟩ := h.met
  obtain ⟨⟨cfg, task⟩, ht, rfl⟩ := Option.map_eq_some_iff.1 hm
  rw [Session.eventsWithin, ht]
  exact hq.run (hq.after acts) ht n

end Endures

end LoxLang
