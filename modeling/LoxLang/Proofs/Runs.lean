import LoxLang.Proofs.Soundness
import LoxLang.Proofs.WaysBack

/-!
# Runs of accepted programs

What a step keeps, a run keeps: the machine is sound at every moment (`Sound.run`), and the events
since the start make its frames (`Sound.frames_run`).
-/

namespace LoxLang

namespace Machine

/-- What happens to frames within so many steps. -/
def eventsWithin (s : Setting) : Nat → Machine → List Event
  | 0, _ => []
  | n + 1, m => if m.halted then [] else m.events ++ eventsWithin s n (m.step s)

end Machine

/-! ## Accepted programs -/

variable {V : Node → Site → Prop} {R : List Region} {m : Machine}

theorem Sound.frame_lt (hm : Sound V R m) (he : m.events ≠ []) : m.frame < m.size := by
  obtain ⟨control, stack, frame, heap, printed, callToken⟩ := m
  obtain ⟨hh, hc⟩ := hm
  cases hc with
  | eval _ ha | exec _ ha | run _ ha | value _ ha => exact Mirrors.lt_size ha
  | returning | failing => exact absurd rfl he

/-- The machine is sound at every moment of a run. -/
theorem Sound.run (hw : Walked V) (hm : Sound V R m) (s : Setting) (n : Nat) :
    Sound V (R ++ Event.regions (m.eventsWithin s n)) (m.run s n) := by
  induction n generalizing m R with
  | zero => simpa [Machine.eventsWithin, Machine.run] using hm
  | succ n ih =>
    rw [Machine.run, Machine.eventsWithin]
    split
    · simpa using hm
    · rw [Event.regions_append, ← List.append_assoc]
      exact ih (hm.step hw s)

/-- The events of a run make its frames. -/
theorem Sound.frames_run (hw : Walked V) (hm : Sound V R m) (s : Setting) (n : Nat) :
    (m.run s n).heap.frames = Event.replay (m.eventsWithin s n) m.heap.frames := by
  induction n generalizing m R with
  | zero => rfl
  | succ n ih =>
    rw [Machine.run, Machine.eventsWithin]
    split
    · rfl
    · rw [Event.replay_append, ih (hm.step hw s), Machine.frames_step s hm.frame_lt]

end LoxLang
