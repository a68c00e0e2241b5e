import LoxLang.Machine
import LoxLang.Proofs.Renaming.Alike
import LoxLang.Proofs.Braces.Trees

/-!
# Machines beside added braces

Machines that run a program without braces around one of its statements and with them (`Alike`). The
second machine makes a frame more each time it enters the braces. `ρ` gives each frame of the first
machine its counterpart; the frames of the braces are nobody's counterparts, and nothing is ever
bound in them (`FramesAlike`). All else that the machines make is numbered alike.
-/

namespace LoxLang.Braces

/-- A frame of the first machine and the frame that the second one is in at the same place, so far
inside the braces. -/
inductive Placed (ρ : List Nat) (fs fs' : Frames Value) : Option Nat → Nat → Nat → Prop where
  | root : ρ[i]? = some i' → fs.frame? i = some ⟨none, bs⟩ → fs'.frame? i' = some ⟨none, bs'⟩ →
      Placed ρ fs fs' none i i'
  | inner : ρ[i]? = some i' → fs.frame? i = some ⟨some j, bs⟩ →
      fs'.frame? i' = some ⟨some j', bs'⟩ → Placed ρ fs fs' o j j' →
      Placed ρ fs fs' (deeper 1 o) i i'
  | braces : Placed ρ fs fs' none i i' → fs'.frame? x = some ⟨some i', bs⟩ →
      Placed ρ fs fs' (some 0) i x

/-- The frames of the two machines. -/
structure FramesAlike (ρ : List Nat) (fs fs' : Frames Value) : Prop where
  size : ρ.length = fs.all.size
  nodup : ρ.Nodup
  bindings {i i' : Nat} : ρ[i]? = some i' →
    ∃ f f', fs.frame? i = some f ∧ fs'.frame? i' = some f' ∧ f'.bindings = f.bindings

section

variable (ρ : List Nat) (h h' : Heap)

/-- Closures that stand for one another, so many scopes outside their functions. None is declared
directly inside the braces. -/
inductive ClosureAlike (n : Nat) : Closure → Closure → Prop where
  | intro : o ≠ some 0 → Braced (deeper n o) (.function f) (.function f') →
      Placed ρ h.frames h'.frames o frame frame' →
      ClosureAlike n ⟨f, frame, isInitializer⟩ ⟨f', frame', isInitializer⟩

/-- The closures that have a number stand for one another. -/
def ClosuresAlike (n k : Nat) : Prop :=
  ∃ c c', h.closures[k]? = some c ∧ h'.closures[k]? = some c' ∧ ClosureAlike ρ h h' n c c'

/-- A value that means the same to both machines. -/
def Shared : Value → Prop
  | .closure k => ClosuresAlike ρ h h' 0 k
  | _ => True

/-- The heaps of the two machines. -/
structure HeapAlike : Prop where
  frames : FramesAlike ρ h.frames h'.frames
  root : ρ[Heap.globals]? = some Heap.globals
  globals : ∃ bs, h.frames.frame? Heap.globals = some ⟨none, bs⟩ ∧
    h'.frames.frame? Heap.globals = some ⟨none, bs⟩
  closures : h'.closures.map Closure.signature = h.closures.map Closure.signature
  classes : h'.classes = h.classes
  instances : h'.instances = h.instances
  ticks : h'.ticks = h.ticks
  values {i : Nat} {x : String} {v : Value} : h.frames.lookup? i x = some v → Shared ρ h h' v
  methods {i : Nat} {c : Class} {x : String} {k : Nat} : h.classes[i]? = some c →
    c.methods.get? x = some k → ClosuresAlike ρ h h' 1 k
  fields {i : Nat} {o : Instance} {x : String} {v : Value} : h.instances[i]? = some o →
    o.fields.get? x = some v → Shared ρ h h' v

/-- What calls give back. -/
inductive ResultAlike : CallResult → CallResult → Prop where
  | returned : ResultAlike .returned .returned
  | receiver : ρ[frame]? = some frame' → ResultAlike (.receiver frame) (.receiver frame')
  | created : ResultAlike (.created object) (.created object)

/-- Constructs that wait in a frame, so far inside the braces. -/
inductive WaitingAlike (o : Option Nat) : Waiting → Waiting → Prop where
  | assign : WaitingAlike o (.assign r) (.assign (r.lift o))
  | binaryRight : Braced o (.expr e) (.expr e') →
      WaitingAlike o (.binaryRight op e) (.binaryRight op e')
  | binary : WaitingAlike o (.binary v op) (.binary v op)
  | callee : Braced o (.exprs es) (.exprs es') →
      WaitingAlike o (.callee paren es) (.callee paren es')
  | argument : Shared ρ h h' v → (∀ u ∈ before, Shared ρ h h' u) →
      Braced o (.exprs es) (.exprs es') →
      WaitingAlike o (.argument v paren before es) (.argument v paren before es')
  | get : WaitingAlike o (.get name) (.get name)
  | logical : Braced o (.expr e) (.expr e') → WaitingAlike o (.logical op e) (.logical op e')
  | setObject : Braced o (.expr e) (.expr e') →
      WaitingAlike o (.setObject name e) (.setObject name e')
  | setValue : WaitingAlike o (.setValue object name) (.setValue object name)
  | unary : WaitingAlike o (.unary op) (.unary op)
  | print : WaitingAlike o .print .print
  | returnValue : WaitingAlike o .returnValue .returnValue
  | define : o ≠ some 0 → WaitingAlike o (.define name) (.define name)
  | loopTest : Braced o (.expr c) (.expr c') → Braced o (.stmt b) (.stmt b') →
      WaitingAlike o (.loopTest c b) (.loopTest c' b')
  | loopBody : Braced o (.expr c) (.expr c') → Braced o (.stmt b) (.stmt b') →
      WaitingAlike o (.loopBody c b) (.loopBody c' b')
  | superclass : o ≠ some 0 → fs.length = fs'.length →
      (∀ f f', (f, f') ∈ fs.zip fs' → Braced (deeper 2 o) (.function f) (.function f')) →
      WaitingAlike o (.superclass name parent fs) (.superclass name parent fs')
  | rest : Braced o (.stmts ss) (.stmts ss') → WaitingAlike o (.rest ss) (.rest ss')

/-- A statement is done: what waits does not use the value that the task leaves. -/
def Ignores : List Waiting → Prop
  | .rest _ :: _ | .loopBody .. :: _ => True
  | _ => False

/-- The waiting constructs, for a task that is done in frames that stand for one another. In the
braces there are two constructs more. -/
inductive StackAlike : List Waiting → List Waiting → Nat → Nat → Prop where
  | bottom : StackAlike [] [] i i'
  | waiting : Placed ρ h.frames h'.frames o i i' → WaitingAlike ρ h h' o w w' →
      StackAlike items items' i i' → StackAlike (w :: items) (w' :: items') i i'
  | branch : Placed ρ h.frames h'.frames o i i' → Braced o (.stmt t) (.stmt t') →
      Braced o (.stmt e) (.stmt e') → Ignores items → StackAlike items items' i i' →
      StackAlike (.branch t e :: items) (.branch t' e' :: items') i i'
  | braces : Ignores items → StackAlike items items' i i' →
      StackAlike items (.rest [] :: .leave i' :: items') i x
  | leave : StackAlike items items' outer outer' →
      StackAlike (.leave outer :: items) (.leave outer' :: items') i i'
  | activation : ResultAlike ρ result result' → StackAlike items items' caller caller' →
      StackAlike (.activation caller result :: items) (.activation caller' result' :: items') i i'

/-- The values that are left for what waits. They may differ when a statement is done. -/
inductive ValueAlike (items : List Waiting) : Value → Value → Prop where
  | shared : Shared ρ h h' v → ValueAlike items v v
  | ignored : Ignores items → ValueAlike items v v'

/-- The tasks in hand, with what waits for the first one. -/
inductive ControlAlike (items : List Waiting) : Control → Control → Nat → Nat → Prop where
  | eval : Placed ρ h.frames h'.frames o i i' → Braced o (.expr e) (.expr e') →
      ControlAlike items (.eval e) (.eval e') i i'
  | exec : Ignores items → Placed ρ h.frames h'.frames o i i' → Braced o (.stmt s) (.stmt s') →
      ControlAlike items (.exec s) (.exec s') i i'
  | run : Placed ρ h.frames h'.frames o i i' → Braced o (.stmts ss) (.stmts ss') →
      ControlAlike items (.run ss) (.run ss') i i'
  | value : ValueAlike ρ h h' items v v' → ControlAlike items (.value v) (.value v') i i'
  | returning : Shared ρ h h' v → ControlAlike items (.returning v) (.returning v) i i'
  | failing : ControlAlike items (.failing f) (.failing f) i i'

end

/-- All of two machines but the tasks in hand. -/
structure Beside (ρ : List Nat) (m m' : Machine) : Prop where
  heap : HeapAlike ρ m.heap m'.heap
  stack : StackAlike ρ m.heap m'.heap m.stack.items m'.stack.items m.frame m'.frame
  printed : m'.printed = m.printed

/-- The frames that two machines are in, so far inside the braces. -/
abbrev InPlace (ρ : List Nat) (o : Option Nat) (m m' : Machine) : Prop :=
  Placed ρ m.heap.frames m'.heap.frames o m.frame m'.frame

/-- Two machines that run a program without braces and with them. -/
def Alike (m m' : Machine) : Prop :=
  ∃ ρ, Beside ρ m m' ∧
    ControlAlike ρ m.heap m'.heap m.stack.items m.control m'.control m.frame m'.frame

/-- The stack has overflowed. -/
def Overflowed (m : Machine) : Prop := ∃ call, m.control = .failing (.overflow call)

/-- Two machines that are alike, unless the stack of one has overflowed. -/
def Follows (m m' : Machine) : Prop := Alike m m' ∨ Overflowed m ∨ Overflowed m'

/-! ## Growing heaps -/

/-- Two heaps grow together; no frame gets another counterpart. -/
structure Extends (ρ : List Nat) (h h' : Heap) (ρ₁ : List Nat) (h₁ h₁' : Heap) : Prop where
  left : Grows [] h [] h₁
  right : Grows [] h' [] h₁'
  counterparts {i i' : Nat} : ρ[i]? = some i' → ρ₁[i]? = some i'

section

variable {ρ ρ₁ ρ₂ : List Nat} {h h' h₁ h₁' h₂ h₂' : Heap}

theorem Extends.refl (ρ : List Nat) (h h' : Heap) : Extends ρ h h' ρ h h' :=
  ⟨.refl [] h, .refl [] h', id⟩

theorem Extends.trans (e : Extends ρ h h' ρ₁ h₁ h₁') (e' : Extends ρ₁ h₁ h₁' ρ₂ h₂ h₂') :
    Extends ρ h h' ρ₂ h₂ h₂' :=
  ⟨e.left.trans e'.left, e.right.trans e'.right, fun hi => e'.counterparts (e.counterparts hi)⟩

theorem Placed.extends (e : Extends ρ h h' ρ₁ h₁ h₁') (hp : Placed ρ h.frames h'.frames o i i') :
    Placed ρ₁ h₁.frames h₁'.frames o i i' := by
  induction hp with
  | root hi hf hf' =>
    obtain ⟨_, hf, -⟩ := e.left.frames hf
    obtain ⟨_, hf', -⟩ := e.right.frames hf'
    exact .root (e.counterparts hi) hf hf'
  | inner hi hf hf' _ ih =>
    obtain ⟨_, hf, -⟩ := e.left.frames hf
    obtain ⟨_, hf', -⟩ := e.right.frames hf'
    exact .inner (e.counterparts hi) hf hf' ih
  | braces _ hf' ih =>
    obtain ⟨_, hf', -⟩ := e.right.frames hf'
    exact .braces ih hf'

theorem ClosureAlike.extends (e : Extends ρ h h' ρ₁ h₁ h₁') (hc : ClosureAlike ρ h h' n c c') :
    ClosureAlike ρ₁ h₁ h₁' n c c' := by
  cases hc with
  | intro ho hf hp => exact .intro ho hf (hp.extends e)

theorem ClosuresAlike.extends (e : Extends ρ h h' ρ₁ h₁ h₁') (hk : ClosuresAlike ρ h h' n k) :
    ClosuresAlike ρ₁ h₁ h₁' n k := by
  obtain ⟨c, c', hc, hc', halike⟩ := hk
  exact ⟨c, c', e.left.closures hc, e.right.closures hc', halike.extends e⟩

theorem Shared.extends (e : Extends ρ h h' ρ₁ h₁ h₁') (hv : Shared ρ h h' v) :
    Shared ρ₁ h₁ h₁' v := by
  cases v with
  | closure k => exact ClosuresAlike.extends e hv
  | _ => trivial

theorem ResultAlike.extends (e : Extends ρ h h' ρ₁ h₁ h₁') (hr : ResultAlike ρ result result') :
    ResultAlike ρ₁ result result' := by
  cases hr with
  | returned => exact .returned
  | receiver hi => exact .receiver (e.counterparts hi)
  | created => exact .created

theorem WaitingAlike.extends (e : Extends ρ h h' ρ₁ h₁ h₁') (hw : WaitingAlike ρ h h' o w w') :
    WaitingAlike ρ₁ h₁ h₁' o w w' := by
  cases hw with
  | assign => exact .assign
  | binaryRight he => exact .binaryRight he
  | binary => exact .binary
  | callee hes => exact .callee hes
  | argument hv hb hes => exact .argument (hv.extends e) (fun u hu => (hb u hu).extends e) hes
  | get => exact .get
  | logical he => exact .logical he
  | setObject he => exact .setObject he
  | setValue => exact .setValue
  | unary => exact .unary
  | print => exact .print
  | returnValue => exact .returnValue
  | define ho => exact .define ho
  | loopTest hc hb => exact .loopTest hc hb
  | loopBody hc hb => exact .loopBody hc hb
  | superclass ho hlen hfs => exact .superclass ho hlen hfs
  | rest hss => exact .rest hss

theorem StackAlike.extends (e : Extends ρ h h' ρ₁ h₁ h₁')
    (hs : StackAlike ρ h h' items items' i i') : StackAlike ρ₁ h₁ h₁' items items' i i' := by
  induction hs with
  | bottom => exact .bottom
  | waiting hp hw _ ih => exact .waiting (hp.extends e) (hw.extends e) ih
  | branch hp ht he hi _ ih => exact .branch (hp.extends e) ht he hi ih
  | braces hi _ ih => exact .braces hi ih
  | leave _ ih => exact .leave ih
  | activation hr _ ih => exact .activation (hr.extends e) ih

end

theorem ClosureAlike.signature (hc : ClosureAlike ρ h h' n c c') : c'.signature = c.signature := by
  cases hc with
  | intro _ hf _ => simp only [Closure.signature, hf.signature]

/-! ## Looking up -/

/-- Outside the braces, and in frames deeper inside than the braces', frames are counterparts. -/
theorem Placed.counterpart (hp : Placed ρ fs fs' o i i') (ho : o ≠ some 0) : ρ[i]? = some i' := by
  cases hp with
  | root hi | inner hi => exact hi
  | braces => exact absurd rfl ho

theorem Placed.lt_size (hp : Placed ρ fs fs' o i i') : i < fs.all.size ∧ i' < fs'.all.size := by
  induction hp with
  | root _ hf hf' | inner _ hf hf' => exact ⟨Frames.lt_of_frame? hf, Frames.lt_of_frame? hf'⟩
  | braces _ hf' ih => exact ⟨ih.1, Frames.lt_of_frame? hf'⟩

theorem liftHops_deeper_zero (o : Option Nat) : liftHops (deeper 1 o) 0 = 0 := by
  cases o <;> simp [deeper, liftHops]

theorem liftHops_deeper_succ (o : Option Nat) (d : Nat) :
    liftHops (deeper 1 o) (d + 1) = liftHops o d + 1 := by
  cases o with
  | none => rfl
  | some k =>
    simp only [deeper, Option.map_some, liftHops]
    split <;> split <;> omega

/-- What is found so many links out: counterparts, or no frame. -/
inductive FoundAlike (ρ : List Nat) : Except FrameFault Nat → Except FrameFault Nat → Prop where
  | ok : ρ[j]? = some j' → FoundAlike ρ (.ok j) (.ok j')
  | outside : FoundAlike ρ (.error .outside) (.error .outside)

/-- With the braces, the same frame is a link farther out for what is bound outside of them. -/
theorem Placed.frameAt (hp : Placed ρ fs fs' o i i') (d : Nat) :
    FoundAlike ρ (fs.frameAt i d) (fs'.frameAt i' (liftHops o d)) := by
  induction hp generalizing d with
  | root hi hf hf' =>
    cases d with
    | zero =>
      rw [liftHops, Frames.frameAt_zero hf, Frames.frameAt_zero hf']
      exact .ok hi
    | succ d =>
      have houtside {fs : Frames Value} {i : Nat} {bs : Bindings Value}
          (hf : fs.frame? i = some ⟨none, bs⟩) : fs.frameAt i (d + 1) = .error .outside := by
        cases d <;> simp [Frames.frameAt, Frames.walk, hf]
      rw [liftHops, houtside hf, houtside hf']
      exact .outside
  | inner hi hf hf' _ ih =>
    cases d with
    | zero =>
      rw [liftHops_deeper_zero, Frames.frameAt_zero hf, Frames.frameAt_zero hf']
      exact .ok hi
    | succ d =>
      rw [liftHops_deeper_succ, Frames.frameAt_succ hf, Frames.frameAt_succ hf']
      exact ih d
  | braces _ hf' ih =>
    rw [liftHops, if_pos (Nat.zero_le d), Frames.frameAt_succ hf']
    exact ih d

namespace FramesAlike

variable {fs fs' : Frames Value}

theorem lookup? (hfs : FramesAlike ρ fs fs') (hi : ρ[i]? = some i') (x : String) :
    fs'.lookup? i' x = fs.lookup? i x := by
  obtain ⟨f, f', hf, hf', hbs⟩ := hfs.bindings hi
  simp only [Frames.lookup?, hf, hf', Option.bind_some, hbs]

/-- A read by hops has the same outcome. -/
theorem getAt (hfs : FramesAlike ρ fs fs') (hp : Placed ρ fs fs' o i i') (d : Nat) (x : String) :
    fs'.getAt i' (liftHops o d) x = fs.getAt i d x := by
  have hfound := hp.frameAt d
  simp only [Frames.getAt]
  generalize fs.frameAt i d = found at hfound ⊢
  generalize fs'.frameAt i' (liftHops o d) = found' at hfound ⊢
  cases hfound with
  | ok hj => simp only [hfs.lookup? hj]
  | outside => rfl

end FramesAlike

end LoxLang.Braces
