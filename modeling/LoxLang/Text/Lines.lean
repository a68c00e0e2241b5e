/-!
# Lines of a text

A text with `n` newlines has `n + 1` lines (`lines`, `length_lines`), the last of which may be
empty; no other character ends a line.
-/

namespace LoxLang.Text

/-- Puts a character in front of the first line. -/
def consFirst (c : Char) : List (List Char) → List (List Char)
  | [] => [[c]]
  | line :: rest => (c :: line) :: rest

/-- The lines of a text, in order. -/
def lines (cs : List Char) : List (List Char) :=
  cs.foldr (fun c ls => if c = '\n' then [] :: ls else consFirst c ls) [[]]

theorem lines_cons (c : Char) (cs : List Char) :
    lines (c :: cs) = if c = '\n' then [] :: lines cs else consFirst c (lines cs) := rfl

theorem lines_ne_nil (cs : List Char) : lines cs ≠ [] := by
  cases cs with
  | nil => simp [lines]
  | cons c cs =>
    rw [lines_cons]
    split
    · simp
    · cases lines cs <;> simp [consFirst]

theorem length_lines (cs : List Char) : (lines cs).length = cs.count '\n' + 1 := by
  induction cs with
  | nil => rfl
  | cons c cs ih =>
    rw [lines_cons]
    split
    · simp_all
    · cases h : lines cs with
      | nil => exact absurd h (lines_ne_nil cs)
      | cons line rest => simp_all [consFirst]

/-- The first line of a text. -/
def firstLine (cs : List Char) : List Char := cs.takeWhile (· != '\n')

theorem head?_lines (cs : List Char) : (lines cs).head? = some (firstLine cs) := by
  induction cs with
  | nil => rfl
  | cons c cs ih =>
    rw [lines_cons, firstLine]
    split
    · simp_all
    · cases h : lines cs with
      | nil => exact absurd h (lines_ne_nil cs)
      | cons line rest => simp_all [consFirst, firstLine]

end LoxLang.Text
