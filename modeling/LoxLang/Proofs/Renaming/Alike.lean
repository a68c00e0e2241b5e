import LoxLang.Machine
import LoxLang.Proofs.Appearances
import LoxLang.Proofs.Mirror
import LoxLang.Proofs.Renaming.Scopes

/-!
# Machines beside a renaming

Machines that run a program and its renaming are `Alike`: the trees that they hold are renamed from
one to the other, and so are the frames that were made for the scope of the declaration
(`FramesAlike`), but all values are the same. `S` lists those frames, and the depth of a frame tells
how far inside the nearest of them it stands (`Depth`).
-/

namespace LoxLang

/-- How far inside a scope is that stands at a point: one scope deeper, or else it may be the scope
of the declaration itself. -/
inductive Enters : Option Nat → Option Nat → Prop where
  | deeper : Enters inside (deeper 1 inside)
  | declares : Enters none (some 0)

/-- A name that may be bound where the new name must not be used. -/
def Renaming.Avoids (φ : Renaming) (inside : Option Nat) (x : String) : Prop :=
  inside.isSome → x ≠ φ.new

/-- A resolved node and what it is renamed to, some scopes inside the scope of the declaration. -/
inductive Renamed (φ : Renaming) : Option Nat → Node → Node → Prop where
  | noExpr : Renamed φ o (.expr .missing) (.expr .missing)
  | assign : φ.Avoids o r.name.lexeme → Renamed φ o (.expr e) (.expr e') →
      Renamed φ o (.expr (.assign r e)) (.expr (.assign (r.rename φ o) e'))
  | binary : Renamed φ o (.expr l) (.expr l') → Renamed φ o (.expr r) (.expr r') →
      Renamed φ o (.expr (.binary l op r)) (.expr (.binary l' op r'))
  | call : Renamed φ o (.expr f) (.expr f') → Renamed φ o (.exprs es) (.exprs es') →
      Renamed φ o (.expr (.call f paren es)) (.expr (.call f' paren es'))
  | get : Renamed φ o (.expr e) (.expr e') →
      Renamed φ o (.expr (.get e name)) (.expr (.get e' name))
  | grouping : Renamed φ o (.expr e) (.expr e') →
      Renamed φ o (.expr (.grouping e)) (.expr (.grouping e'))
  | literal : Renamed φ o (.expr (.literal c)) (.expr (.literal c))
  | logical : Renamed φ o (.expr l) (.expr l') → Renamed φ o (.expr r) (.expr r') →
      Renamed φ o (.expr (.logical l op r)) (.expr (.logical l' op r'))
  | set : Renamed φ o (.expr e) (.expr e') → Renamed φ o (.expr v) (.expr v') →
      Renamed φ o (.expr (.set e name v)) (.expr (.set e' name v'))
  | super : Renamed φ o (.expr (.super k method)) (.expr (.super k method))
  | this : (o.isSome → k.name.lexeme = "this") → Renamed φ o (.expr (.this k)) (.expr (.this k))
  | unary : Renamed φ o (.expr e) (.expr e') →
      Renamed φ o (.expr (.unary op e)) (.expr (.unary op e'))
  | variable : φ.Avoids o r.name.lexeme →
      Renamed φ o (.expr (.variable r)) (.expr (.variable (r.rename φ o)))
  | noExprs : Renamed φ o (.exprs []) (.exprs [])
  | exprs : Renamed φ o (.expr e) (.expr e') → Renamed φ o (.exprs es) (.exprs es') →
      Renamed φ o (.exprs (e :: es)) (.exprs (e' :: es'))
  | noStmt : Renamed φ o (.stmt .missing) (.stmt .missing)
  | block : Enters o o' → Renamed φ o' (.stmts ss) (.stmts ss') →
      Renamed φ o (.stmt (.block ss)) (.stmt (.block ss'))
  | classDecl : φ.Avoids o name.lexeme → (o = some 0 → name.lexeme ≠ φ.old) →
      (∀ r ∈ superclass, φ.Avoids o r.name.lexeme) → fs.length = fs'.length →
      (∀ f f', (f, f') ∈ fs.zip fs' →
        Renamed φ (deeper (if superclass.isSome then 2 else 1) o) (.function f) (.function f')) →
      Renamed φ o (.stmt (.classDecl name superclass fs))
        (.stmt (.classDecl name (superclass.map (·.rename φ o)) fs'))
  | expression : Renamed φ o (.expr e) (.expr e') →
      Renamed φ o (.stmt (.expression e)) (.stmt (.expression e'))
  | function : φ.Avoids o f.name.lexeme → (o = some 0 → f.name.lexeme ≠ φ.old) →
      Renamed φ o (.function f) (.function f') →
      Renamed φ o (.stmt (.function f)) (.stmt (.function f'))
  | ifElse : Renamed φ o (.expr c) (.expr c') → Renamed φ o (.stmt t) (.stmt t') →
      Renamed φ o (.stmt e) (.stmt e') →
      Renamed φ o (.stmt (.ifElse c t e)) (.stmt (.ifElse c' t' e'))
  | print : Renamed φ o (.expr e) (.expr e') → Renamed φ o (.stmt (.print e)) (.stmt (.print e'))
  | returnNil : Renamed φ o (.stmt (.returning k none)) (.stmt (.returning k none))
  | returnValue : Renamed φ o (.expr e) (.expr e') →
      Renamed φ o (.stmt (.returning k (some e))) (.stmt (.returning k (some e')))
  | varNil : φ.Avoids o name.lexeme → Renamed φ o (.stmt (.varDecl name none))
      (.stmt (.varDecl (name.rename φ (o = some 0)) none))
  | varValue : φ.Avoids o name.lexeme → Renamed φ o (.expr e) (.expr e') →
      Renamed φ o (.stmt (.varDecl name (some e)))
        (.stmt (.varDecl (name.rename φ (o = some 0)) (some e')))
  | whileLoop : Renamed φ o (.expr c) (.expr c') → Renamed φ o (.stmt b) (.stmt b') →
      Renamed φ o (.stmt (.whileLoop c b)) (.stmt (.whileLoop c' b'))
  | noStmts : Renamed φ o (.stmts []) (.stmts [])
  | stmts : Renamed φ o (.stmt s) (.stmt s') → Renamed φ o (.stmts ss) (.stmts ss') →
      Renamed φ o (.stmts (s :: ss)) (.stmts (s' :: ss'))
  | body : Enters o o' → (o' = some 0 → ∀ p ∈ ps, p.lexeme ≠ φ.new) →
      Renamed φ o' (.stmts ss) (.stmts ss') →
      Renamed φ o (.function (.mk name ps ss))
        (.function (.mk name (ps.map (·.rename φ (o' = some 0))) ss'))

/-- How far inside the frames of `S` a frame stands. -/
inductive Depth (S : List Nat) (fs : Frames Value) : Nat → Option Nat → Prop where
  | root : fs.frame? i = some ⟨none, bs⟩ → i ∉ S → Depth S fs i none
  | inner : fs.frame? i = some ⟨some j, bs⟩ → Depth S fs j o → Enters o o' →
      (i ∈ S ↔ o' = some 0) → Depth S fs i o'

/-- The frames of the two machines. -/
structure FramesAlike (φ : Renaming) (S : List Nat) (fs fs' : Frames Value) : Prop where
  size : fs'.all.size = fs.all.size
  frame (i : Nat) : fs'.frame? i =
    (fs.frame? i).map fun f => { f with bindings := f.bindings.rename φ (i ∈ S) }
  fresh {i : Nat} {f : Frame Value} : i ∈ S → fs.frame? i = some f → ¬f.bindings.contains φ.new
  bounded : ∀ i ∈ S, i < fs.all.size

section

variable (φ : Renaming) (S : List Nat) (h h' : Heap)

/-- Closures that stand for one another, so many scopes outside their functions. -/
inductive ClosureAlike (n : Nat) : Closure → Closure → Prop where
  | intro : Renamed φ (deeper n o) (.function f) (.function f') → Depth S h.frames frame o →
      ClosureAlike n ⟨f, frame, isInitializer⟩ ⟨f', frame, isInitializer⟩

/-- A value that means the same to both machines. -/
def Shared : Value → Prop
  | .closure i => ∃ c c', h.closures[i]? = some c ∧ h'.closures[i]? = some c' ∧
      ClosureAlike φ S h 0 c c'
  | _ => True

/-- The heaps of the two machines. -/
structure HeapAlike : Prop where
  frames : FramesAlike φ S h.frames h'.frames
  globals : ∃ bs, h.frames.frame? Heap.globals = some ⟨none, bs⟩
  unmarked : Heap.globals ∉ S
  closures : h'.closures.map Closure.signature = h.closures.map Closure.signature
  classes : h'.classes = h.classes
  instances : h'.instances = h.instances
  ticks : h'.ticks = h.ticks
  values {i : Nat} {x : String} {v : Value} : h.frames.lookup? i x = some v → Shared φ S h h' v
  methods {i : Nat} {c : Class} {x : String} {k : Nat} : h.classes[i]? = some c →
    c.methods.get? x = some k → ∃ m m', h.closures[k]? = some m ∧ h'.closures[k]? = some m' ∧
      ClosureAlike φ S h 1 m m'
  fields {i : Nat} {o : Instance} {x : String} {v : Value} : h.instances[i]? = some o →
    o.fields.get? x = some v → Shared φ S h h' v

/-- Failures that are reported alike. A frame that lacks the old name lacks the new one. -/
inductive FailureAlike : Failure → Failure → Prop where
  | error : t'.line = t.line → FailureAlike (.error t e) (.error t' e)
  | overflow : FailureAlike (.overflow call) (.overflow call)
  | fault : FailureAlike (.fault f) (.fault f)
  | unbound : FailureAlike (.fault (.unbound x)) (.fault (.unbound (φ.name bound x)))

/-- Constructs that wait in a frame of some depth. -/
inductive WaitingAlike (o : Option Nat) : Waiting → Waiting → Prop where
  | assign : φ.Avoids o r.name.lexeme → WaitingAlike o (.assign r) (.assign (r.rename φ o))
  | binaryRight : Renamed φ o (.expr e) (.expr e') →
      WaitingAlike o (.binaryRight op e) (.binaryRight op e')
  | binary : WaitingAlike o (.binary v op) (.binary v op)
  | callee : Renamed φ o (.exprs es) (.exprs es') →
      WaitingAlike o (.callee paren es) (.callee paren es')
  | argument : Shared φ S h h' v → (∀ u ∈ before, Shared φ S h h' u) →
      Renamed φ o (.exprs es) (.exprs es') →
      WaitingAlike o (.argument v paren before es) (.argument v paren before es')
  | get : WaitingAlike o (.get name) (.get name)
  | logical : Renamed φ o (.expr e) (.expr e') → WaitingAlike o (.logical op e) (.logical op e')
  | setObject : Renamed φ o (.expr e) (.expr e') →
      WaitingAlike o (.setObject name e) (.setObject name e')
  | setValue : WaitingAlike o (.setValue object name) (.setValue object name)
  | unary : WaitingAlike o (.unary op) (.unary op)
  | print : WaitingAlike o .print .print
  | returnValue : WaitingAlike o .returnValue .returnValue
  | define : φ.Avoids o name.lexeme →
      WaitingAlike o (.define name) (.define (name.rename φ (o = some 0)))
  | branch : Renamed φ o (.stmt t) (.stmt t') → Renamed φ o (.stmt e) (.stmt e') →
      WaitingAlike o (.branch t e) (.branch t' e')
  | loopTest : Renamed φ o (.expr c) (.expr c') → Renamed φ o (.stmt b) (.stmt b') →
      WaitingAlike o (.loopTest c b) (.loopTest c' b')
  | loopBody : Renamed φ o (.expr c) (.expr c') → Renamed φ o (.stmt b) (.stmt b') →
      WaitingAlike o (.loopBody c b) (.loopBody c' b')
  | superclass : φ.Avoids o name.lexeme → (o = some 0 → name.lexeme ≠ φ.old) →
      parent'.line = parent.line → fs.length = fs'.length →
      (∀ f f', (f, f') ∈ fs.zip fs' → Renamed φ (deeper 2 o) (.function f) (.function f')) →
      WaitingAlike o (.superclass name parent fs) (.superclass name parent' fs')
  | rest : Renamed φ o (.stmts ss) (.stmts ss') → WaitingAlike o (.rest ss) (.rest ss')

/-- The waiting constructs, for a task that is done in a frame. -/
inductive StackAlike : List Waiting → List Waiting → Nat → Prop where
  | bottom : StackAlike [] [] i
  | waiting : Depth S h.frames i o → WaitingAlike φ S h h' o w w' → StackAlike items items' i →
      StackAlike (w :: items) (w' :: items') i
  | leave : StackAlike items items' outer →
      StackAlike (.leave outer :: items) (.leave outer :: items') i
  | activation : StackAlike items items' caller →
      StackAlike (.activation caller result :: items) (.activation caller result :: items') i

/-- The tasks in hand, in a frame. -/
inductive ControlAlike : Control → Control → Nat → Prop where
  | eval : Depth S h.frames i o → Renamed φ o (.expr e) (.expr e') →
      ControlAlike (.eval e) (.eval e') i
  | exec : Depth S h.frames i o → Renamed φ o (.stmt s) (.stmt s') →
      ControlAlike (.exec s) (.exec s') i
  | run : Depth S h.frames i o → Renamed φ o (.stmts ss) (.stmts ss') →
      ControlAlike (.run ss) (.run ss') i
  | value : Shared φ S h h' v → ControlAlike (.value v) (.value v) i
  | returning : Shared φ S h h' v → ControlAlike (.returning v) (.returning v) i
  | failing : FailureAlike φ f f' → ControlAlike (.failing f) (.failing f') i

end

/-- All of two machines but the tasks in hand. -/
structure Beside (φ : Renaming) (S : List Nat) (m m' : Machine) : Prop where
  heap : HeapAlike φ S m.heap m'.heap
  stack : StackAlike φ S m.heap m'.heap m.stack.items m'.stack.items m.frame
  frame : m'.frame = m.frame
  printed : m'.printed = m.printed
  callToken : m'.callToken = m.callToken

/-- Two machines that run a program and its renaming. -/
def Alike (φ : Renaming) (m m' : Machine) : Prop :=
  ∃ S, Beside φ S m m' ∧ ControlAlike φ S m.heap m'.heap m.control m'.control m.frame

/-! ## Growing heaps -/

theorem Grows.regionless (hg : Grows R h R' h') : Grows [] h [] h' :=
  ⟨hg.frames, nofun, hg.closures, hg.instances⟩

/-- Two heaps grow together; no frame gets another depth. -/
structure Extends (S : List Nat) (h h' : Heap) (S₁ : List Nat) (h₁ h₁' : Heap) : Prop where
  left : Grows [] h [] h₁
  right : Grows [] h' [] h₁'
  marks {i : Nat} : i < h.frames.all.size → (i ∈ S₁ ↔ i ∈ S)

section

variable {φ : Renaming} {S S₁ S₂ : List Nat} {h h' h₁ h₁' h₂ h₂' : Heap}

theorem Extends.refl (S : List Nat) (h h' : Heap) : Extends S h h' S h h' :=
  ⟨.refl [] h, .refl [] h', fun _ => .rfl⟩

theorem Extends.trans (e : Extends S h h' S₁ h₁ h₁') (e' : Extends S₁ h₁ h₁' S₂ h₂ h₂') :
    Extends S h h' S₂ h₂ h₂' where
  left := e.left.trans e'.left
  right := e.right.trans e'.right
  marks hi := by
    obtain ⟨bs, hf, -⟩ := e.left.frames (Array.getElem?_eq_getElem hi)
    exact (e'.marks (Frames.lt_of_frame? hf)).trans (e.marks hi)

theorem Depth.lt_size {fs : Frames Value} (hd : Depth S fs i o) : i < fs.all.size := by
  cases hd with
  | root hf => exact Frames.lt_of_frame? hf
  | inner hf => exact Frames.lt_of_frame? hf

theorem Depth.extends (e : Extends S h h' S₁ h₁ h₁') (hd : Depth S h.frames i o) :
    Depth S₁ h₁.frames i o := by
  induction hd with
  | root hf hi =>
    obtain ⟨bs', hf', -⟩ := e.left.frames hf
    exact .root hf' fun hi' => hi ((e.marks (Frames.lt_of_frame? hf)).1 hi')
  | inner hf _ ho hi ih =>
    obtain ⟨bs', hf', -⟩ := e.left.frames hf
    exact .inner hf' ih ho ((e.marks (Frames.lt_of_frame? hf)).trans hi)

theorem ClosureAlike.extends (e : Extends S h h' S₁ h₁ h₁') (hc : ClosureAlike φ S h n c c') :
    ClosureAlike φ S₁ h₁ n c c' := by
  cases hc with
  | intro hf hd => exact .intro hf (hd.extends e)

theorem Shared.extends (e : Extends S h h' S₁ h₁ h₁') (hv : Shared φ S h h' v) :
    Shared φ S₁ h₁ h₁' v := by
  cases v with
  | closure i =>
    obtain ⟨c, c', hc, hc', halike⟩ := hv
    exact ⟨c, c', e.left.closures hc, e.right.closures hc', halike.extends e⟩
  | _ => trivial

theorem WaitingAlike.extends (e : Extends S h h' S₁ h₁ h₁') (hw : WaitingAlike φ S h h' o w w') :
    WaitingAlike φ S₁ h₁ h₁' o w w' := by
  cases hw with
  | assign hr => exact .assign hr
  | binaryRight he => exact .binaryRight he
  | binary => exact .binary
  | callee hes => exact .callee hes
  | argument hv hb hes => exact .argument (hv.extends e) (fun u hu => (hb u hu).extends e) hes
  | get => exact .get
  | logical he => exact .logical he
  | setObject he => exact .setObject he
  | setValue => exact .setValue
  | unary => exact .unary
  | print => exact .print
  | returnValue => exact .returnValue
  | define hx => exact .define hx
  | branch ht he => exact .branch ht he
  | loopTest hc hb => exact .loopTest hc hb
  | loopBody hc hb => exact .loopBody hc hb
  | superclass hx hold hline hlen hfs => exact .superclass hx hold hline hlen hfs
  | rest hss => exact .rest hss

theorem StackAlike.extends (e : Extends S h h' S₁ h₁ h₁')
    (hs : StackAlike φ S h h' items items' i) :
    StackAlike φ S₁ h₁ h₁' items items' i := by
  induction hs with
  | bottom => exact .bottom
  | waiting hd hw _ ih => exact .waiting (hd.extends e) (hw.extends e) ih
  | leave _ ih => exact .leave ih
  | activation _ ih => exact .activation ih

theorem StackAlike.length_eq (hs : StackAlike φ S h h' items items' i) :
    items'.length = items.length := by
  induction hs with
  | bottom => rfl
  | waiting _ _ _ ih | leave _ ih | activation _ ih => simp [ih]

end

/-- A function keeps its name and the number of its parameters. -/
theorem Renamed.signature {f f' : Function} (hf : Renamed φ o (.function f) (.function f')) :
    f'.name = f.name ∧ f'.parameters.length = f.parameters.length := by
  cases hf with
  | body => exact ⟨rfl, List.length_map ..⟩

theorem ClosureAlike.signature (hc : ClosureAlike φ S h n c c') : c'.signature = c.signature := by
  cases hc with
  | intro hf _ => simp only [Closure.signature, hf.signature]

/-! ## Looking up -/

theorem Depth.frameAt {S : List Nat} {fs : Frames Value} (hd : Depth S fs i o)
    (hj : fs.frameAt i d = .ok j) : j ∈ S ↔ o = some d := by
  induction hd generalizing d with
  | root hf hi =>
    cases d with
    | zero =>
      rw [Frames.frameAt_zero hf] at hj
      cases hj
      simpa using hi
    | succ d => cases d <;> simp [Frames.frameAt, Frames.walk, hf] at hj
  | inner hf _ ho hi ih =>
    cases d with
    | zero =>
      rw [Frames.frameAt_zero hf] at hj
      cases hj
      exact hi
    | succ d =>
      rw [Frames.frameAt_succ hf] at hj
      rw [ih hj]
      cases ho with
      | deeper => simp [deeper]
      | declares => simp

theorem Depth.mem {S : List Nat} {fs : Frames Value} (hd : Depth S fs i o) :
    i ∈ S ↔ o = some 0 := by
  cases hd with
  | root _ hi => simpa using hi
  | inner _ _ _ hi => exact hi

namespace FramesAlike

variable {φ : Renaming} {S : List Nat} {fs fs' : Frames Value}

theorem walk (hfs : FramesAlike φ S fs fs') (d : Nat) (position : Option Nat) :
    fs'.walk d position = fs.walk d position := by
  induction d generalizing position with
  | zero => rfl
  | succ d ih =>
    cases position with
    | none => rfl
    | some i =>
      simp only [Frames.walk, hfs.frame i]
      cases fs.frame? i with
      | none => rfl
      | some f => exact ih _

theorem frameAt (hfs : FramesAlike φ S fs fs') (i d : Nat) : fs'.frameAt i d = fs.frameAt i d := by
  simp only [Frames.frameAt, hfs.walk, hfs.size]

theorem lookup? (hfs : FramesAlike φ S fs fs') (hx : i ∈ S → x ≠ φ.new) :
    fs'.lookup? i (φ.name (i ∈ S) x) = fs.lookup? i x := by
  simp only [Frames.lookup?, hfs.frame i]
  cases hf : fs.frame? i with
  | none => rfl
  | some f =>
    by_cases hi : i ∈ S
    · simp only [hi, decide_true]
      exact Bindings.get?_rename (hfs.fresh hi hf) (hx hi) true
    · simp [hi]

end FramesAlike

end LoxLang
