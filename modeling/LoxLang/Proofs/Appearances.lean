import LoxLang.Machine.Step

/-!
# Appearances

What can be seen of a heap from outside: how its values are printed, which of them can be called and
with how many arguments, and what operators make of them. Of a function only the name and the number
of its parameters show (`Closure.signature`). Heaps that look alike (`Heap.LooksAlike`) give the
same texts (`Heap.LooksAlike.text`) and the same results of operators.
-/

namespace LoxLang

/-- What can be seen of a closure from outside. -/
def Closure.signature (c : Closure) : String × Nat :=
  (c.declaration.name.lexeme, c.declaration.parameters.length)

/-- Heaps whose values cannot be told apart without calling them. -/
structure Heap.LooksAlike (h h' : Heap) : Prop where
  closures : h'.closures.map Closure.signature = h.closures.map Closure.signature
  classes : h'.classes = h.classes
  instances : h'.instances = h.instances

namespace Heap.LooksAlike

variable {h h' : Heap}

theorem closures_size (hh : h.LooksAlike h') : h'.closures.size = h.closures.size := by
  simpa using congrArg Array.size hh.closures

theorem signature (hh : h.LooksAlike h') (i : Nat) :
    h'.closures[i]?.map Closure.signature = h.closures[i]?.map Closure.signature := by
  rw [← Array.getElem?_map, hh.closures, Array.getElem?_map]

theorem text (hh : h.LooksAlike h') (v : Value) : h'.text v = h.text v := by
  have hclass (i : Nat) : h'.className i = h.className i := by
    rw [className, className, hh.classes]
  cases v with
  | closure i =>
    have hname := congrArg (Option.map Prod.fst) (hh.signature i)
    simp only [Option.map_map] at hname
    simp only [Heap.text]
    exact congrArg (fun name : Option String => "<fn " ++ name.getD "" ++ ">") hname
  | cls i => exact hclass i
  | object i => simp only [Heap.text, hh.instances, hclass]
  | bool b => cases b <;> rfl
  | _ => rfl

theorem method? (hh : h.LooksAlike h') (cls : Nat) (x : String) :
    h'.method? cls x = h.method? cls x := by
  have hwithin (n i : Nat) : h'.methodWithin x n i = h.methodWithin x n i := by
    induction n generalizing i with
    | zero => rfl
    | succ n ih => simp only [methodWithin, hh.classes, ih]
  exact hwithin _ _

theorem closureArity (hh : h.LooksAlike h') (i : Nat) :
    h'.closureArity i = h.closureArity i := by
  have hlength := congrArg (Option.map Prod.snd) (hh.signature i)
  simp only [Option.map_map] at hlength
  exact congrArg (Option.getD · 0) hlength

theorem arity? (hh : h.LooksAlike h') (v : Value) : h'.arity? v = h.arity? v := by
  have hclosure : h'.closureArity = h.closureArity := funext hh.closureArity
  cases v <;> simp only [Heap.arity?, hclosure, hh.method?]

end Heap.LooksAlike

/-! ## Operators -/

namespace Machine

/-- The two machines go on alike from an operator, which is `t` in one and `t'` in the other: they
have the same value, which is no function, or both report something there. -/
inductive Concludes (m m' : Machine) (t t' : Token) : Machine → Machine → Prop where
  | yield : (∀ k, v ≠ .closure k) → Concludes m m' t t' (m.yield v) (m'.yield v)
  | error : Concludes m m' t t' (m.error t e) (m'.error t' e)
  | fault : Concludes m m' t t' (m.fault f) (m'.fault f)

variable {m m' : Machine} {t t' : Token}

theorem ne_closure_of_arithmetic? (hv : arithmetic? kind x y = some v) (k : Nat) :
    v ≠ .closure k := by
  unfold arithmetic? at hv
  split at hv <;> cases hv <;> simp

theorem concludes_add (hh : m.heap.LooksAlike m'.heap) (l r : Value) :
    Concludes m m' t t' (m.add l t r) (m'.add l t' r) := by
  unfold add
  simp only [hh.text]
  split
  · exact .yield (by simp)
  · exact .yield (by simp)
  · exact .yield (by simp)
  · exact .error

theorem concludes_binary (hh : m.heap.LooksAlike m'.heap) (hkind : t'.kind = t.kind)
    (hlexeme : t'.lexeme = t.lexeme) (l r : Value) :
    Concludes m m' t t' (m.binary l t r) (m'.binary l t' r) := by
  unfold binary
  rw [hkind, hlexeme]
  split
  · exact .yield (by simp)
  · exact .yield (by simp)
  · exact concludes_add hh ..
  · split
    · next x y =>
      cases hv : arithmetic? t.kind x y with
      | none => exact .fault
      | some v => exact .yield (ne_closure_of_arithmetic? hv)
    · exact .error

theorem concludes_unary (hkind : t'.kind = t.kind) (hlexeme : t'.lexeme = t.lexeme) (v : Value) :
    Concludes m m' t t' (m.unary t v) (m'.unary t' v) := by
  unfold unary
  rw [hkind, hlexeme]
  split
  · exact .yield (by simp)
  · split
    · exact .yield (by simp)
    · exact .error
  · exact .fault

end Machine

end LoxLang
