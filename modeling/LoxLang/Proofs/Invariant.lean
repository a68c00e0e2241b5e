import LoxLang.Machine
import LoxLang.Proofs.Fits
import LoxLang.Proofs.Mirror

/-!
# The invariant of a sound machine

A machine that runs accepted programs is `Sound`. Every closure that can be reached as a value came
from a function that the resolver visited, and its frame mirrors the scopes there (`Callable`); so
does the frame of every construct that waits (`StackOk`). `V` tells what the resolver visited and
`R` the region of every frame.
-/

namespace LoxLang

/-- A set of visited nodes: it has all that the walk asks for, and every node fits its site. -/
structure Walked (V : Node → Site → Prop) : Prop where
  asks {n n' : Node} {σ σ' : Site} : V n σ → Asks n σ n' σ' → V n' σ'
  fits {n : Node} {σ : Site} : V n σ → Fits n σ

theorem Visited.walked (hroots : ∀ n, roots n → Fits n .topLevel) : Walked (Visited roots) :=
  ⟨.asks, fits hroots⟩

section

variable (V : Node → Site → Prop) (R : List Region) (h : Heap)

/-- The frames from `i` on are those of a site. -/
def At (i : Nat) (σ : Site) : Prop := Mirrors R h.frames σ.pending i σ.scopes σ.regions

/-- A function or a bound method. Its frame is one of the site that it was declared at. -/
inductive Callable : Closure → Prop where
  | intro : V (.function f) σ → At R h frame σ →
      (isInitializer = true → σ.scopes.head? = some [("this", true)]) →
      Callable ⟨σ.function f, frame, isInitializer⟩

/-- A method that is not bound yet: only the frame of its `this` is missing. -/
inductive Method : Closure → Prop where
  | intro : V (.function f) σ → σ.scopes = [("this", true)] :: Γ →
      σ.regions = .receiver (σ.function f) :: ρs → Mirrors R h.frames none frame Γ ρs →
      Method ⟨σ.function f, frame, isInitializer⟩

def ValueOk : Value → Prop
  | .closure i => ∃ c, h.closures[i]? = some c ∧ Callable V R h c
  | .object i => i < h.instances.size
  | _ => True

structure HeapOk : Prop where
  size : R.length = h.frames.all.size
  globals : ∃ bs, h.frames.frame? Heap.globals = some ⟨none, bs⟩
  region : R[Heap.globals]? = some .globals
  values {i : Nat} {x : String} {v : Value} : h.frames.lookup? i x = some v → ValueOk V R h v
  supers {i : Nat} {name : Token} {fs : List Function} : R[i]? = some (.superclass name fs) →
    ∃ c, h.frames.lookup? i "super" = some (.cls c)
  methods {i : Nat} {c : Class} {x : String} {k : Nat} : h.classes[i]? = some c →
    c.methods.get? x = some k → ∃ m, h.closures[k]? = some m ∧ Method V R h m
  fields {i : Nat} {o : Instance} {x : String} {v : Value} : h.instances[i]? = some o →
    o.fields.get? x = some v → ValueOk V R h v

/-- A call that can give back what it is to give back. -/
def ResultOk : CallResult → Prop
  | .returned => True
  | .receiver frame =>
    ∃ outer bs, h.frames.frame? frame = some ⟨outer, bs⟩ ∧ bs.contains "this"
  | .created object => object < h.instances.size

/-- A construct that waits at the first site for its part and is done at the second one. -/
inductive Joins : Waiting → Site → Site → Prop where
  | assign : V (.expr (.assign r e)) σ → Joins (.assign (r.resolve σ.scopes)) σ σ
  | binaryRight : op.kind.isBinary → V (.expr e) σ → Joins (.binaryRight op (σ.expr e)) σ σ
  | binary : op.kind.isBinary → ValueOk V R h v → Joins (.binary v op) σ σ
  | callee : V (.exprs es) σ → Joins (.callee paren (σ.exprs es)) σ σ
  | argument : ValueOk V R h v → (∀ u ∈ before, ValueOk V R h u) → V (.exprs es) σ →
      Joins (.argument v paren before (σ.exprs es)) σ σ
  | get : Joins (.get name) σ σ
  | logical : V (.expr e) σ → Joins (.logical op (σ.expr e)) σ σ
  | setObject : V (.expr e) σ → Joins (.setObject name (σ.expr e)) σ σ
  | setValue : Joins (.setValue object name) σ σ
  | unary : op.kind.isUnary → Joins (.unary op) σ σ
  | print : Joins .print σ σ
  | returnValue : σ.around.function.isSome → Joins .returnValue σ σ
  | define : V (.stmt (.varDecl name (some e))) σ →
      Joins (.define name) (σ.inInitializer name) (σ.introduce name)
  | branch : V (.stmt (.ifElse c t e)) σ → Joins (.branch (σ.stmt t) (σ.stmt e)) σ σ
  | loopTest : V (.stmt (.whileLoop c b)) σ → Joins (.loopTest (σ.expr c) (σ.stmt b)) σ σ
  | loopBody : V (.stmt (.whileLoop c b)) σ → Joins (.loopBody (σ.expr c) (σ.stmt b)) σ σ
  | superclass (parent : Token) : V (.stmt (.classDecl name (some r) fs)) σ →
      Joins (.superclass name parent ((σ.inClass name true).methods fs)) (σ.inSuperclass name)
        (σ.introduce name)
  | rest : V (.stmts ss) σ → Joins (.rest (σ.stmts ss)) σ (σ.afterAll ss)

/-- The waiting constructs, for a task that is done in a frame of a site. -/
inductive StackOk : List Waiting → Nat → Site → Prop where
  | bottom : σ.around.function = none → StackOk [] i σ
  | waiting : Joins V R h w σ σ' → StackOk items i σ' → StackOk (w :: items) i σ
  | leave : σ.around = σ'.around → At R h outer σ' → StackOk items outer σ' →
      StackOk (.leave outer :: items) i σ
  | activation : ResultOk h result → At R h caller σ' → StackOk items caller σ' →
      StackOk (.activation caller result :: items) i σ

/-- The task in hand with what waits for it, in a frame. -/
inductive ControlOk : Control → List Waiting → Nat → Prop where
  | eval : V (.expr e) σ → At R h i σ → StackOk V R h items i σ →
      ControlOk (.eval (σ.expr e)) items i
  | exec : V (.stmt s) σ → At R h i σ → StackOk V R h items i (σ.after s) →
      ControlOk (.exec (σ.stmt s)) items i
  | run : V (.stmts ss) σ → At R h i σ → StackOk V R h items i (σ.afterAll ss) →
      ControlOk (.run (σ.stmts ss)) items i
  | value : ValueOk V R h v → At R h i σ → StackOk V R h items i σ → ControlOk (.value v) items i
  | returning : ValueOk V R h v → σ.around.function.isSome → StackOk V R h items i σ →
      ControlOk (.returning v) items i
  | failing : (∀ fault, f ≠ .fault fault) → ControlOk (.failing f) items i

end

/-- The machine runs an accepted program. -/
structure Sound (V : Node → Site → Prop) (R : List Region) (m : Machine) : Prop where
  heap : HeapOk V R m.heap
  control : ControlOk V R m.heap m.control m.stack.items m.frame

/-! ## Growing heaps -/

theorem At.grows (hg : Grows R h R' h') (ha : At R h i σ) : At R' h' i σ := Mirrors.grows hg ha

theorem Callable.grows (hg : Grows R h R' h') (hc : Callable V R h c) : Callable V R' h' c := by
  cases hc with
  | intro hv ha hi => exact .intro hv (ha.grows hg) hi

theorem Method.grows (hg : Grows R h R' h') (hm : Method V R h c) : Method V R' h' c := by
  cases hm with
  | intro hv hs hr hm => exact .intro hv hs hr (hm.grows hg)

theorem ValueOk.grows (hg : Grows R h R' h') (hv : ValueOk V R h v) : ValueOk V R' h' v := by
  cases v with
  | closure i =>
    obtain ⟨c, hc, hcall⟩ := hv
    exact ⟨c, hg.closures hc, hcall.grows hg⟩
  | object i => exact Nat.lt_of_lt_of_le hv hg.instances
  | _ => trivial

theorem ResultOk.grows (hg : Grows R h R' h') (hr : ResultOk h r) : ResultOk h' r := by
  cases r with
  | returned => trivial
  | created object => exact Nat.lt_of_lt_of_le hr hg.instances
  | receiver frame =>
    obtain ⟨outer, bs, hf, hbs⟩ := hr
    obtain ⟨bs', hf', hgain⟩ := hg.frames hf
    exact ⟨outer, bs', hf', hgain _ hbs⟩

theorem Joins.grows (hg : Grows R h R' h') (hj : Joins V R h w σ σ') : Joins V R' h' w σ σ' := by
  cases hj with
  | assign hv => exact .assign hv
  | binaryRight hop hv => exact .binaryRight hop hv
  | binary hop hv => exact .binary hop (hv.grows hg)
  | callee hv => exact .callee hv
  | argument hv hb hes => exact .argument (hv.grows hg) (fun u hu => (hb u hu).grows hg) hes
  | get => exact .get
  | logical hv => exact .logical hv
  | setObject hv => exact .setObject hv
  | setValue => exact .setValue
  | unary hop => exact .unary hop
  | print => exact .print
  | returnValue hf => exact .returnValue hf
  | define hv => exact .define hv
  | branch hv => exact .branch hv
  | loopTest hv => exact .loopTest hv
  | loopBody hv => exact .loopBody hv
  | superclass parent hv => exact .superclass parent hv
  | rest hv => exact .rest hv

theorem StackOk.grows (hg : Grows R h R' h') (hs : StackOk V R h items i σ) :
    StackOk V R' h' items i σ := by
  induction hs with
  | bottom hf => exact .bottom hf
  | waiting hj _ ih => exact .waiting (hj.grows hg) ih
  | leave he ha _ ih => exact .leave he (ha.grows hg) ih
  | activation hr ha _ ih => exact .activation (hr.grows hg) (ha.grows hg) ih

end LoxLang
