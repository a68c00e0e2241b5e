/-!
# Bindings

Names bound to things (`Bindings`), in the order in which the names were first bound. Binding a name
again (`insert`) keeps its place.
-/

namespace LoxLang

abbrev Bindings (α : Type) := List (String × α)

namespace Bindings

variable {α : Type}

/-- What a name is bound to. -/
def get? (name : String) (bs : Bindings α) : Option α := bs.lookup name

def contains (name : String) (bs : Bindings α) : Bool := (bs.get? name).isSome

/-- Binds a name, in its old place if it has one and behind all others if not. -/
def insert (name : String) (a : α) : Bindings α → Bindings α
  | [] => [(name, a)]
  | (n, b) :: rest => if n = name then (n, a) :: rest else (n, b) :: insert name a rest

/-- The names in order. -/
def names (bs : Bindings α) : List String := bs.map (·.1)

theorem get?_cons (n name : String) (a : α) (rest : Bindings α) :
    get? name ((n, a) :: rest) = if n = name then some a else get? name rest := by
  by_cases h : n = name
  · simp [get?, h]
  · have : (name == n) = false := by simpa using fun e => h e.symm
    simp [get?, List.lookup_cons, this, h]

theorem of_get?_single (h : get? name [(n, a)] = some b) : n = name ∧ a = b := by
  rw [get?_cons] at h
  split at h
  · next hn => exact ⟨hn, Option.some.inj h⟩
  · cases h

theorem get?_insert_self (name : String) (a : α) (bs : Bindings α) :
    (bs.insert name a).get? name = some a := by
  induction bs with
  | nil => simp [insert, get?_cons]
  | cons b rest ih =>
    obtain ⟨n, b⟩ := b
    by_cases h : n = name
    · simp [insert, get?_cons, h]
    · simpa [insert, get?_cons, h] using ih

theorem get?_insert_of_ne {name other : String} (h : other ≠ name) (a : α) (bs : Bindings α) :
    (bs.insert name a).get? other = bs.get? other := by
  induction bs with
  | nil => simp [insert, get?, h]
  | cons b rest ih =>
    obtain ⟨n, b⟩ := b
    by_cases hn : n = name
    · subst hn
      simp [insert, get?_cons, h.symm]
    · simp only [insert, hn, if_false, get?_cons, ih]

theorem contains_insert (name other : String) (a : α) (bs : Bindings α) :
    (bs.insert name a).contains other = (other = name || bs.contains other) := by
  by_cases h : other = name
  · subst h; simp [contains, get?_insert_self]
  · simp [contains, get?_insert_of_ne h, h]

end Bindings

end LoxLang
