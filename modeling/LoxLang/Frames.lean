import LoxLang.Bindings

/-!
# Frames of variables

Each frame but the outermost is enclosed by an older one, so the frames around a point form a chain,
and several chains may share their outer part. A name is found either by searching the chain from
its inner end (`get?`, `assign?`) or by counting links (`getAt`, `assignAt`).
-/

namespace LoxLang

structure Frame (α : Type) where
  enclosing : Option Nat
  bindings : Bindings α

/-- Frames by number, in the order in which they were made. -/
structure Frames (α : Type) where
  all : Array (Frame α)

/-- Why a frame has no answer. -/
inductive FrameFault where
  /-- The frame does not bind the name. -/
  | unbound (name : String)
  /-- The chain has no frame so far out. -/
  | outside
deriving DecidableEq

namespace Frames

variable {α : Type}

def empty : Frames α := ⟨#[]⟩

def frame? (fs : Frames α) (i : Nat) : Option (Frame α) := fs.all[i]?

/-- Makes a frame and gives its number. -/
def make (fs : Frames α) (enclosing : Option Nat) (bindings : Bindings α) : Nat × Frames α :=
  (fs.all.size, ⟨fs.all.push ⟨enclosing, bindings⟩⟩)

/-- Binds a name in a frame, whatever the frames around it bind. -/
def define (fs : Frames α) (i : Nat) (name : String) (a : α) : Frames α :=
  ⟨fs.all.modify i fun f => { f with bindings := f.bindings.insert name a }⟩

/-- Follows links outwards. The walk may end one link beyond the outermost frame, where there is no
frame, but no further. -/
def walk (fs : Frames α) : Nat → Option Nat → Except FrameFault (Option Nat)
  | 0, position => .ok position
  | _ + 1, none => .error .outside
  | n + 1, some i =>
    match fs.frame? i with
    | none => .error .outside
    | some f => fs.walk n f.enclosing

/-- The first of at most `n` frames along a chain that binds a name. -/
def holderWithin (fs : Frames α) (name : String) : Nat → Nat → Option Nat
  | 0, _ => none
  | n + 1, i =>
    match fs.frame? i with
    | none => none
    | some f =>
      if f.bindings.contains name then some i
      else
        match f.enclosing with
        | none => none
        | some j => fs.holderWithin name n j

/-- The nearest frame that binds a name. A frame is younger than the one around it, so the chain
from frame `i` has at most `i + 1` frames. -/
def holder? (fs : Frames α) (i : Nat) (name : String) : Option Nat :=
  fs.holderWithin name (i + 1) i

/-- What a frame itself binds a name to. -/
def lookup? (fs : Frames α) (i : Nat) (name : String) : Option α :=
  (fs.frame? i).bind fun f => f.bindings.get? name

/-- What the nearest frame that binds a name binds it to. -/
def get? (fs : Frames α) (i : Nat) (name : String) : Option α :=
  (fs.holder? i name).bind fun j => fs.lookup? j name

/-- Rebinds a name in the nearest frame that binds it. -/
def assign? (fs : Frames α) (i : Nat) (name : String) (a : α) : Option (Frames α) :=
  (fs.holder? i name).map fun j => fs.define j name a

/-- The frame a number of links out. -/
def frameAt (fs : Frames α) (i : Nat) (distance : Nat) : Except FrameFault Nat :=
  match fs.walk distance (some i) with
  | .error fault => .error fault
  | .ok none => .error .outside
  | .ok (some j) => if j < fs.all.size then .ok j else .error .outside

/-- What the frame a number of links out binds a name to. -/
def getAt (fs : Frames α) (i : Nat) (distance : Nat) (name : String) : Except FrameFault α :=
  match fs.frameAt i distance with
  | .error fault => .error fault
  | .ok j =>
    match fs.lookup? j name with
    | none => .error (.unbound name)
    | some a => .ok a

/-- Binds a name in the frame a number of links out, whether or not it did so before. -/
def assignAt (fs : Frames α) (i : Nat) (distance : Nat) (name : String) (a : α) :
    Except FrameFault (Frames α) :=
  match fs.frameAt i distance with
  | .error fault => .error fault
  | .ok j => .ok (fs.define j name a)

@[simp] theorem frame?_make_self (fs : Frames α) (enclosing : Option Nat) (bs : Bindings α) :
    (fs.make enclosing bs).2.frame? (fs.make enclosing bs).1 = some ⟨enclosing, bs⟩ := by
  simp [make, frame?]

theorem frame?_make_of_lt {fs : Frames α} {i : Nat} (h : i < fs.all.size)
    (enclosing : Option Nat) (bs : Bindings α) :
    (fs.make enclosing bs).2.frame? i = fs.frame? i := by
  simp [make, frame?, Array.getElem?_push, Nat.ne_of_lt h]

theorem frame?_define (fs : Frames α) (i j : Nat) (name : String) (a : α) :
    (fs.define i name a).frame? j =
      if i = j then (fs.frame? j).map fun f => { f with bindings := f.bindings.insert name a }
      else fs.frame? j := by
  simp [define, frame?, Array.getElem?_modify]

/-- Binding a name in a frame moves no frame. -/
theorem map_enclosing_define (fs : Frames α) (i j : Nat) (name : String) (a : α) :
    ((fs.define i name a).frame? j).map Frame.enclosing = (fs.frame? j).map Frame.enclosing := by
  rw [frame?_define]
  split
  · simp [Option.map_map, Function.comp_def]
  · rfl

theorem lookup?_define_self {fs : Frames α} {i : Nat} (h : i < fs.all.size) (name : String)
    (a : α) : (fs.define i name a).lookup? i name = some a := by
  obtain ⟨f, hf⟩ : ∃ f, fs.frame? i = some f := ⟨_, Array.getElem?_eq_getElem h⟩
  simp [lookup?, frame?_define, hf, Bindings.get?_insert_self]

/-- Binding a name in a frame leaves the names of other frames and its own other names alone. -/
theorem lookup?_define_of_ne (fs : Frames α) {i j : Nat} {name other : String}
    (h : i ≠ j ∨ other ≠ name) (a : α) :
    (fs.define i name a).lookup? j other = fs.lookup? j other := by
  rw [lookup?, lookup?, frame?_define]
  split
  · have := h.resolve_left (by simp_all)
    cases fs.frame? j with
    | none => rfl
    | some f => exact Bindings.get?_insert_of_ne this a f.bindings
  · rfl

/-- The text of a frame: the names it binds. -/
def display (fs : Frames α) (i : Nat) : String :=
  let names := ((fs.frame? i).map fun f => f.bindings.names).getD []
  "Environment(" ++ String.intercalate ", " names ++ ")"

end Frames

/-- The complaint about a variable that no frame around binds. -/
def undefinedVariableMessage (name : String) : String := "Undefined variable '" ++ name ++ "'."

end LoxLang
