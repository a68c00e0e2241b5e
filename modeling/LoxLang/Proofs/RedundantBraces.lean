import LoxLang.Proofs.RenamedLocals
import LoxLang.Proofs.Braces.Resolution
import LoxLang.Proofs.Braces.Steps

/-!
# Redundant braces

Braces around a statement that is no declaration change nothing that can be seen
(`braced_statement_seen_alike`). The program with the braces is accepted, the references in the
statement that are bound outside of it have one more hop, and a run prints the same, ends in the
same way and leaves the same globals.
-/

namespace LoxLang

namespace Braces

/-! ## What is in the heap at the start -/

/-- Before the run each frame is its own counterpart. -/
theorem placed_of_mirrors {R : List Region} {fs : Frames Value}
    (hm : Mirrors R fs lacking i Γ ρs) : Placed (List.range fs.all.size) fs fs none i i := by
  have hself {i : Nat} {f : Frame Value} (hf : fs.frame? i = some f) :
      (List.range fs.all.size)[i]? = some i := List.getElem?_range (Frames.lt_of_frame? hf)
  induction hm with
  | globals hf => exact .root (hself hf) hf hf
  | inner hf _ _ _ ih => exact .inner (hself hf) hf hf ih

/-- Before the run a heap is alike to itself. -/
theorem heapAlike_self (hh : HeapOk V R h) : HeapAlike (List.range h.frames.all.size) h h := by
  have hrange {i i' : Nat} (hi : (List.range h.frames.all.size)[i]? = some i') :
      i < h.frames.all.size ∧ i = i' := by
    obtain ⟨hlt, he⟩ := List.getElem?_eq_some_iff.1 hi
    exact ⟨by simpa using hlt, by simpa using he⟩
  have hshared {v : Value} (hv : ValueOk V R h v) :
      Shared (List.range h.frames.all.size) h h v := by
    cases v with
    | closure k =>
      obtain ⟨c, hc, hcall⟩ := hv
      refine ⟨c, c, hc, hc, ?_⟩
      cases hcall with
      | intro _ ha _ =>
        exact .intro (o := none) (Option.some_ne_none 0).symm (braced_function _)
          (placed_of_mirrors ha)
    | _ => trivial
  obtain ⟨bs, hbs⟩ := hh.globals
  exact {
    frames := {
      size := List.length_range
      nodup := List.nodup_range
      bindings := by
        intro i i' hi
        obtain ⟨hlt, rfl⟩ := hrange hi
        exact ⟨_, _, Array.getElem?_eq_getElem hlt, Array.getElem?_eq_getElem hlt, rfl⟩ }
    root := List.getElem?_range (Frames.lt_of_frame? hbs)
    globals := ⟨bs, hbs, hbs⟩
    closures := rfl
    classes := rfl
    instances := rfl
    ticks := rfl
    values := fun hv => hshared (hh.values hv)
    methods := by
      intro i c x k hc hk
      obtain ⟨m, hm, hmethod⟩ := hh.methods hc hk
      refine ⟨m, m, hm, hm, ?_⟩
      cases hmethod with
      | intro _ _ _ hmirrors =>
        exact .intro (o := none) (Option.some_ne_none 0).symm (braced_function _)
          (placed_of_mirrors hmirrors)
    fields := fun ho hv => hshared (hh.fields ho hv) }

/-! ## What is seen -/

theorem Alike.ending {m m' : Machine} (hm : Alike m m') : EndsAlike m.ending m'.ending := by
  obtain ⟨control, ⟨items, n, hn⟩, frame, heap, printed, callToken⟩ := m
  obtain ⟨control', ⟨items', n', hn'⟩, frame', heap', printed', callToken'⟩ := m'
  obtain ⟨ρ, ⟨-, hstack, -⟩, hc⟩ := hm
  dsimp only at hstack hc
  cases hstack with
  | bottom =>
    cases hc with
    | value hv =>
      cases hv with
      | shared => exact .value
      | ignored hi => exact hi.elim
    | @failing f =>
      cases f with
      | error => exact .error rfl
      | overflow => exact .overflow
      | fault => exact .fault
    | _ => exact .unfinished
  | @braces items =>
    -- a statement is being executed, and something waits for it
    cases items with
    | nil => contradiction
    | cons => exact .unfinished
  | _ => exact .unfinished

theorem HeapAlike.globals_eq (hh : HeapAlike ρ h h') (log : Log) (frame frame' : Nat)
    (callToken callToken' : Option Token) :
    Session.globals ⟨log, ⟨h', frame', callToken'⟩⟩ =
      Session.globals ⟨log, ⟨h, frame, callToken⟩⟩ := by
  obtain ⟨bs, hbs, hbs'⟩ := hh.globals
  simp only [Session.globals, hbs, hbs', hh.looks.text]

end Braces

/-! ## Overflows -/

/-- The run of a program never ends with an overflow of the stack. -/
def Memory.NeverOverflows (mem : Memory) (s : Setting) (program : List Stmt) : Prop :=
  ∀ steps call, (mem.interpret s steps program).ending ≠ .failed (.overflow call)

/-- A failure is reported once all that waits has been left. -/
theorem Machine.ending_of_failing {m : Machine} (hc : m.control = .failing f) (s : Setting) :
    ∃ k, (m.run s k).ending = .failed f := by
  obtain ⟨control, ⟨items, n, hn⟩, frame, heap, printed, callToken⟩ := m
  obtain rfl : control = .failing f := hc
  subst hn
  induction items generalizing frame with
  | nil => exact ⟨0, rfl⟩
  | cons w items ih =>
    have hstep : ∃ frame', Machine.step s ⟨.failing f, ⟨w :: items, _, rfl⟩, frame, heap, printed,
        callToken⟩ = ⟨.failing f, ⟨items, _, rfl⟩, frame', heap, printed, callToken⟩ := by
      cases w <;> exact ⟨_, rfl⟩
    obtain ⟨frame', hstep⟩ := hstep
    obtain ⟨k, hk⟩ := ih frame'
    exact ⟨k + 1, by rw [run_succ, hstep, hk]⟩

/-- Then the stack does not overflow at any moment of the run. -/
theorem Memory.NeverOverflows.not_overflowed {mem : Memory}
    (h : mem.NeverOverflows s program) (n : Nat) :
    ¬Braces.Overflowed ((mem.start (.run program)).run s n) := by
  rintro ⟨call, hc⟩
  obtain ⟨k, hk⟩ := Machine.ending_of_failing hc s
  rw [← Machine.run_add] at hk
  exact h (n + k) call hk

theorem Run.ending_of_isSome_text? {r : Run} (h : r.text?.isSome) : ∃ v, r.ending = .value v := by
  unfold text? at h
  split at h
  · next v hv => exact ⟨v, hv⟩
  · cases h

/-- A run that ends with a value never overflows the stack. -/
theorem Memory.NeverOverflows.of_text? {mem : Memory}
    (h : (mem.interpret s n program).text?.isSome) : mem.NeverOverflows s program := by
  intro steps call hover
  obtain ⟨v, hv⟩ := Run.ending_of_isSome_text? h
  simp only [interpret, perform] at hv hover
  have hhalted : ((mem.start (.run program)).run s n).halted = true :=
    Machine.halted_of_ending (by simp [hv])
  have hhalted' : ((mem.start (.run program)).run s steps).halted = true :=
    Machine.halted_of_ending (by simp [hover])
  have hsame : ((mem.start (.run program)).run s n).ending =
      ((mem.start (.run program)).run s steps).ending := by
    rcases Nat.le_total n steps with hle | hle
    · obtain ⟨k, rfl⟩ := Nat.exists_eq_add_of_le hle
      rw [Machine.run_add, Machine.run_of_halted hhalted]
    · obtain ⟨k, rfl⟩ := Nat.exists_eq_add_of_le hle
      rw [Machine.run_add, Machine.run_of_halted hhalted']
  cases (hv.symm.trans hsame).trans hover

/-! ## Runs -/

/-- While no stack overflows, two programs that are alike have runs of which the same is seen. -/
theorem Memory.seenAlike_interpret {mem : Memory} {R : List Region} {resolved resolved' : List Stmt}
    (hheap : HeapOk V R mem.heap) (hframe : mem.frame = Heap.globals)
    (hb : Braces.Braced none (.stmts resolved) (.stmts resolved')) {s s' : Setting}
    (hclock : s'.clock = s.clock) (hfits : mem.NeverOverflows s resolved)
    (hfits' : mem.NeverOverflows s' resolved') (n : Nat) :
    ∃ n', n ≤ n' ∧ SeenAlike (mem.interpret s n resolved) (mem.interpret s' n' resolved') := by
  obtain ⟨bs, hglobals⟩ := hheap.globals
  have hhh := Braces.heapAlike_self hheap
  have hplaced := Braces.Placed.root hhh.root hglobals hglobals
  rw [← hframe] at hplaced
  have hstart : Braces.Alike (mem.start (.run resolved)) (mem.start (.run resolved')) :=
    ⟨_, ⟨hhh, .bottom, rfl⟩, .run hplaced hb⟩
  obtain ⟨n', hle, halike | hover | hover⟩ := hstart.run (s := s) hclock n
  · obtain ⟨ρ, hbeside, -⟩ := id halike
    exact ⟨n', hle, hbeside.printed, halike.ending, fun log => hbeside.heap.globals_eq log ..⟩
  · exact absurd hover (hfits.not_overflowed n)
  · exact absurd hover (hfits'.not_overflowed n')

/-- In whatever session, let a program be accepted whose tree is one that is read from text, and put
braces around one of its statements, at any depth, that is no declaration. Then the program with the
braces is accepted, and it is resolved to the same tree but for the braces and for one hop more in
each reference in the statement that is bound outside of it. If no stack overflows and the clock
tells the same time, then for each moment of the run without the braces there is one of the run with
them, as late or later, of which the same is seen; and a run with the braces that has ended shows
the same as the run without them, which has ended too. -/
theorem braced_statement_seen_alike (colored : Bool) (acts : List Act)
    {program resolved braced : List Stmt} (hwell : WellFormedStmts program)
    (haccepted : resolveProgram program = (resolved, []))
    (hbraces : AtStatement Stmt.Braces (.stmts program) (.stmts braced)) :
    ∃ resolved', resolveProgram braced = (resolved', []) ∧
      AtStatement Stmt.LiftBraces (.stmts resolved) (.stmts resolved') ∧
      ∀ s s' : Setting, s'.clock = s.clock →
        let mem := ((Session.start colored).after acts).memory
        mem.NeverOverflows s resolved → mem.NeverOverflows s' resolved' →
          (∀ n, ∃ n', n ≤ n' ∧
            SeenAlike (mem.interpret s n resolved) (mem.interpret s' n' resolved')) ∧
          ∀ n, (mem.interpret s' n resolved').ending ≠ .unfinished →
            SeenAlike (mem.interpret s n resolved) (mem.interpret s' n resolved') := by
  obtain ⟨rfl, hreports⟩ := Prod.mk.inj haccepted
  have hnone : (Braces.resolveNode .topLevel [] (.stmts program)).findings = [] :=
    List.map_eq_nil_iff.1 hreports
  obtain ⟨hfindings, -, htree⟩ := Braces.resolve_atStatement hbraces hwell rfl hnone
  have hb := Braces.braced_of_atStatement <|
    htree.imp fun {s t} (hst : Braces.LiftsBraced s t) => hst.1 ▸ .braces hst.2
  refine ⟨_, Prod.ext rfl (by rw [resolveProgram]; exact List.map_eq_nil_iff.2 hfindings),
    htree.imp And.left, fun s s' hclock => ?_⟩
  intro mem hfits hfits'
  have hmem := Session.remembers_after colored acts []
  have hseen := Memory.seenAlike_interpret hmem.heap hmem.frame hb hclock hfits hfits'
  refine ⟨hseen, fun n hended => ?_⟩
  obtain ⟨n', hle, hn'⟩ := hseen n
  obtain ⟨k, rfl⟩ := Nat.exists_eq_add_of_le hle
  have hsame : mem.interpret s' (n + k) (resolveProgram braced).1 =
      mem.interpret s' n (resolveProgram braced).1 := by
    simp only [Memory.interpret, Memory.perform, Machine.run_add,
      Machine.run_of_halted (Machine.halted_of_ending hended)]
  exact hsame ▸ hn'

instance (r : Reference) : Decidable r.Unresolved :=
  decidable_of_iff (r.hops = none ∧ IsIdentifier r.name.lexeme)
    ⟨fun ⟨hops, name⟩ => ⟨hops, name⟩, fun ⟨hops, name⟩ => ⟨hops, name⟩⟩

/-- A function makes a closure in a block in braces and returns it, and it is called twice. -/
theorem braced_statement_seen_alike_of_closure :
    let name (x : String) : Token := ⟨.identifier, x, none, 1, 1⟩
    let sign (kind : TokenKind) (x : String) : Token := ⟨kind, x, none, 1, 1⟩
    let use (x : String) : Expr := .variable ⟨name x, none⟩
    let call (x : String) : Expr := .call (use x) (sign .rightParen ")") []
    let giveBack (x : String) : Stmt := .returning (sign .kwReturn "return") (some (use x))
    -- `{ fun g() { x = x + "b"; return x; } f = g; }`
    let inner : Stmt := .block [
      .function (.mk (name "g") [] [
        .expression (.assign ⟨name "x", none⟩
          (.binary (use "x") (sign .plus "+") (.literal (.string "b")))),
        giveBack "x"]),
      .expression (.assign ⟨name "f", none⟩ (use "g"))]
    -- `fun make() { var x = "a"; var f; ... return f; } var h = make(); h(); print h();`
    let program (s : Stmt) : List Stmt := [
      .function (.mk (name "make") [] [
        .varDecl (name "x") (some (.literal (.string "a"))), .varDecl (name "f") none, s,
        giveBack "f"]),
      .varDecl (name "h") (some (call "make")), .expression (call "h"), .print (call "h")]
    let run (s : Stmt) : Run :=
      Memory.initial.interpret ⟨100, fun _ => 0⟩ 200 (resolveProgram (program s)).1
    WellFormedStmts (program inner) ∧ (resolveProgram (program inner)).2 = [] ∧
      (resolveProgram (program (.block [inner]))).2 = [] ∧
      AtStatement Stmt.LiftBraces (.stmts (resolveProgram (program inner)).1)
        (.stmts (resolveProgram (program (.block [inner]))).1) ∧
      SeenAlike (run inner) (run (.block [inner])) ∧ (run inner).printed = #["abb"] := by
  intro name sign use call giveBack inner program run
  have hwell : WellFormedStmts (program inner) := by
    simp only [program, inner, giveBack, call, use, WellFormedStmts, Stmt.WellFormed,
      Function.WellFormed, Expr.WellFormed, Expr.WellFormedOption, WellFormedExprs]
    decide +kernel
  have hbraces : AtStatement Stmt.Braces (.stmts (program inner))
      (.stmts (program (.block [inner]))) :=
    .head (.function (.body (.tail (.tail (.head (.here ⟨rfl, rfl⟩))))))
  have hnone : (resolveProgram (program inner)).2 = [] := by decide +kernel
  obtain ⟨_, hresolved, htree, hruns⟩ := braced_statement_seen_alike false [] hwell
    (Prod.ext rfl hnone) hbraces
  obtain ⟨rfl, hnone'⟩ := Prod.mk.inj hresolved
  have hended : (Memory.initial.interpret ⟨100, fun _ => 0⟩ 200
      (resolveProgram (program inner)).1).text?.isSome := by decide +kernel
  have hended' : (Memory.initial.interpret ⟨100, fun _ => 0⟩ 200
      (resolveProgram (program (.block [inner]))).1).text?.isSome := by decide +kernel
  obtain ⟨-, hseen⟩ :=
    hruns ⟨100, fun _ => 0⟩ ⟨100, fun _ => 0⟩ rfl (.of_text? hended) (.of_text? hended')
  obtain ⟨v, hv⟩ := Run.ending_of_isSome_text? hended'
  have hseen := hseen 200 fun he => by cases hv.symm.trans he
  exact ⟨hwell, hnone, hnone', htree, hseen, by decide +kernel⟩

end LoxLang
