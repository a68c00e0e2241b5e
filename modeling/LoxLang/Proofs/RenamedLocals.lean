import LoxLang.Proofs.Histories
import LoxLang.Proofs.Renaming.Counterparts
import LoxLang.Proofs.Renaming.Steps

/-!
# Renamed local variables

Renaming a local variable changes nothing that can be seen (`renamed_local_seen_alike`). The renamed
program is accepted, every reference has the hops that it had, and a run prints the same, ends in
the same way and leaves the same globals (`SeenAlike`).
-/

namespace LoxLang

variable {φ : Renaming}

/-! ## The declarations that can be renamed -/

mutual
/-- The declarations of variables and parameters in the scopes inside a statement. -/
def Stmt.locals : Stmt → List Token
  | .block body => body.flatMap Stmt.variables ++ stmtLocals body
  | .classDecl _ _ methods => methodLocals methods
  | .function f => f.locals
  | .ifElse _ thenBranch elseBranch => thenBranch.locals ++ elseBranch.locals
  | .whileLoop _ body => body.locals
  | .missing | .expression _ | .print _ | .returning .. | .varDecl .. => []
def Function.locals : Function → List Token
  | .mk _ parameters body => parameters ++ body.flatMap Stmt.variables ++ stmtLocals body
def methodLocals : List Function → List Token
  | [] => []
  | f :: rest => f.locals ++ methodLocals rest
/-- The local variables and parameters of a program. What its own statements declare is global. -/
def stmtLocals : List Stmt → List Token
  | [] => []
  | s :: rest => s.locals ++ stmtLocals rest
end

mutual
theorem Stmt.exists_renamesLocal {D : Token} (hold : D.lexeme = φ.old) :
    ∀ s : Stmt, D ∈ s.locals → ∃ t, RenamesLocal φ D (.stmt s) (.stmt t)
  | .missing, h | .expression _, h | .print _, h | .returning .., h | .varDecl .., h => by
    simp only [Stmt.locals] at h
    cases h
  | .block ss, h => by
    simp only [Stmt.locals, List.mem_append] at h
    rcases h with h | h
    · exact ⟨_, .variable h hold⟩
    · obtain ⟨ts, hts⟩ := exists_renamesLocal_stmts hold ss h
      exact ⟨_, .block hts⟩
  | .classDecl name superclass fs, h => by
    simp only [Stmt.locals] at h
    obtain ⟨gs, f, hs, f', rfl, hf⟩ := exists_renamesLocal_methods hold fs h
    exact ⟨_, .method hf⟩
  | .function f, h => by
    simp only [Stmt.locals] at h
    obtain ⟨f', hf⟩ := f.exists_renamesLocal hold h
    exact ⟨_, .function hf⟩
  | .ifElse c t e, h => by
    simp only [Stmt.locals, List.mem_append] at h
    rcases h with h | h
    · obtain ⟨t', ht⟩ := t.exists_renamesLocal hold h
      exact ⟨_, .thenBranch ht⟩
    · obtain ⟨e', he⟩ := e.exists_renamesLocal hold h
      exact ⟨_, .elseBranch he⟩
  | .whileLoop c b, h => by
    simp only [Stmt.locals] at h
    obtain ⟨b', hb⟩ := b.exists_renamesLocal hold h
    exact ⟨_, .whileBody hb⟩
theorem Function.exists_renamesLocal {D : Token} (hold : D.lexeme = φ.old) :
    ∀ f : Function, D ∈ f.locals → ∃ g, RenamesLocal φ D (.function f) (.function g)
  | .mk name ps ss, h => by
    simp only [Function.locals, List.mem_append (t := stmtLocals ss)] at h
    rcases h with h | h
    · exact ⟨_, .parameter h hold⟩
    · obtain ⟨ts, hts⟩ := exists_renamesLocal_stmts hold ss h
      exact ⟨_, .body hts⟩
theorem exists_renamesLocal_methods {D : Token} (hold : D.lexeme = φ.old) :
    ∀ fs : List Function, D ∈ methodLocals fs → ∃ gs f hs f', fs = gs ++ f :: hs ∧
      RenamesLocal φ D (.function f) (.function f')
  | [], h => by
    simp only [methodLocals] at h
    cases h
  | f :: fs, h => by
    simp only [methodLocals, List.mem_append] at h
    rcases h with h | h
    · obtain ⟨f', hf⟩ := f.exists_renamesLocal hold h
      exact ⟨[], f, fs, f', rfl, hf⟩
    · obtain ⟨gs, g, hs, g', rfl, hg⟩ := exists_renamesLocal_methods hold fs h
      exact ⟨f :: gs, g, hs, g', rfl, hg⟩
theorem exists_renamesLocal_stmts {D : Token} (hold : D.lexeme = φ.old) :
    ∀ ss : List Stmt, D ∈ stmtLocals ss → ∃ ts, RenamesLocal φ D (.stmts ss) (.stmts ts)
  | [], h => by
    simp only [stmtLocals] at h
    cases h
  | s :: ss, h => by
    simp only [stmtLocals, List.mem_append] at h
    rcases h with h | h
    · obtain ⟨t, ht⟩ := s.exists_renamesLocal hold h
      exact ⟨_, .head ht⟩
    · obtain ⟨ts, hts⟩ := exists_renamesLocal_stmts hold ss h
      exact ⟨_, .tail hts⟩
end

/-! ## What is in the heap at the start -/

/-- Frames that mirror scopes outside of the scope of the declaration. -/
theorem Mirrors.depth {fs : Frames Value} (hm : Mirrors R fs lacking i Γ ρs) :
    Depth [] fs i none := by
  induction hm with
  | globals hf => exact .root hf List.not_mem_nil
  | inner hf _ _ _ ih => exact .inner hf ih (show Enters none none from .deeper) (by simp)

/-- Before the run of the renamed program, a heap is alike to itself. -/
theorem HeapOk.alike (hh : HeapOk V R h) : HeapAlike φ [] h h := by
  have hshared {v : Value} (hv : ValueOk V R h v) : Shared φ [] h h v := by
    cases v with
    | closure i =>
      obtain ⟨c, hc, hcall⟩ := hv
      refine ⟨c, c, hc, hc, ?_⟩
      cases hcall with
      | intro _ ha _ => exact .intro (Function.renamed_self _) ha.depth
    | _ => trivial
  exact {
    frames := ⟨rfl, fun i => by simp, nofun, nofun⟩
    globals := hh.globals
    unmarked := List.not_mem_nil
    closures := rfl
    classes := rfl
    instances := rfl
    ticks := rfl
    values := fun hv => hshared (hh.values hv)
    methods := by
      intro i c x k hc hk
      obtain ⟨m, hm, hmethod⟩ := hh.methods hc hk
      refine ⟨m, m, hm, hm, ?_⟩
      cases hmethod with
      | intro _ _ _ hmirrors => exact .intro (Function.renamed_self _) hmirrors.depth
    fields := fun ho hv => hshared (hh.fields ho hv) }

/-! ## Runs -/

/-- Two runs end in the same way: both with the same value, both with the same run-time error on the
same line, both with the same overflow, both with a fault, or neither. -/
inductive EndsAlike : Ending → Ending → Prop where
  | value : EndsAlike (.value v) (.value v)
  | error : t'.line = t.line → EndsAlike (.failed (.error t e)) (.failed (.error t' e))
  | overflow : EndsAlike (.failed (.overflow call)) (.failed (.overflow call))
  | fault : EndsAlike (.failed (.fault f)) (.failed (.fault f'))
  | unfinished : EndsAlike .unfinished .unfinished

/-- Two runs of which the same can be seen. -/
structure SeenAlike (r r' : Run) : Prop where
  printed : r'.printed = r.printed
  ending : EndsAlike r.ending r'.ending
  globals (log : Log) : Session.globals ⟨log, r'.memory⟩ = Session.globals ⟨log, r.memory⟩

theorem Alike.ending {m m' : Machine} (hm : Alike φ m m') : EndsAlike m.ending m'.ending := by
  obtain ⟨control, ⟨items, n, hn⟩, frame, heap, printed, callToken⟩ := m
  obtain ⟨control', ⟨items', n', hn'⟩, frame', heap', printed', callToken'⟩ := m'
  obtain ⟨S, ⟨-, hstack, -, -, -⟩, hc⟩ := hm
  dsimp only at hstack hc
  cases hstack with
  | bottom =>
    cases hc with
    | value => exact .value
    | failing hf =>
      cases hf with
      | error hline => exact .error hline
      | overflow => exact .overflow
      | fault | unbound => exact .fault
    | _ => exact .unfinished
  | _ => exact .unfinished

theorem HeapAlike.globals_eq (hh : HeapAlike φ S h h') (log : Log) (frame frame' : Nat)
    (callToken callToken' : Option Token) :
    Session.globals ⟨log, ⟨h', frame', callToken'⟩⟩ =
      Session.globals ⟨log, ⟨h, frame, callToken⟩⟩ := by
  obtain ⟨bs, hbs⟩ := hh.globals
  have hbs' := hh.frames.frame Heap.globals
  simp only [hbs, hh.unmarked, Option.map_some, decide_false, Bindings.rename_false] at hbs'
  simp only [Session.globals, hbs, hbs', hh.looks.text]

/-- Tasks that are alike have runs of which the same can be seen. -/
theorem Memory.seenAlike_perform {mem : Memory} (hh : HeapAlike φ [] mem.heap mem.heap)
    (hc : ControlAlike φ [] mem.heap mem.heap task task' mem.frame) (s : Setting) (steps : Nat) :
    SeenAlike (mem.perform s steps task) (mem.perform s steps task') := by
  have hstart : Alike φ (mem.start task) (mem.start task') :=
    ⟨[], ⟨hh, .bottom, rfl, rfl, rfl⟩, hc⟩
  have hrun := hstart.run s steps
  obtain ⟨S, hbeside, -⟩ := id hrun
  exact ⟨hbeside.printed, hrun.ending, fun log => hbeside.heap.globals_eq log ..⟩

/-- In whatever session, let a program be accepted, and let `D` be the declaration of one of its
local variables or parameters. Then `D` can be renamed, with all that is bound to it, to any
identifier that the program does not refer to or declare; and the renamed program is accepted, each
of its references has the hops that it had, and its run shows the same. -/
theorem renamed_local_seen_alike (colored : Bool) (acts : List Act) {program resolved : List Stmt}
    {D : Token} (haccepted : resolveProgram program = (resolved, []))
    (hrefs : ∀ p ∈ stmtReferences program, φ.Admits p)
    (hdecls : ∀ t ∈ stmtDeclarations program, t.lexeme ≠ φ.new)
    (hD : D ∈ stmtLocals resolved) (hold : D.lexeme = φ.old) :
    (∃ renamed, RenamesLocal φ D (.stmts resolved) (.stmts renamed)) ∧
    ∀ renamed, RenamesLocal φ D (.stmts resolved) (.stmts renamed) →
      resolveProgram (bareStmts renamed) = (renamed, []) ∧
      hopsOf (stmtReferences renamed) = hopsOf (stmtReferences resolved) ∧
      ∀ (s : Setting) (steps : Nat),
        let mem := ((Session.start colored).after acts).memory
        SeenAlike (mem.interpret s steps resolved) (mem.interpret s steps renamed) := by
  refine ⟨exists_renamesLocal_stmts hold _ hD, fun renamed hlocal => ?_⟩
  obtain ⟨rfl, hfindings⟩ := Prod.mk.inj haccepted
  have hfindings := List.map_eq_nil_iff.1 hfindings
  have hresolved := resolveStmts_renamesLocal program .topLevel (Γ := []) (List.forall_mem_nil _)
    hrefs hdecls hfindings hlocal
  refine ⟨by rw [resolveProgram, hresolved]; rfl, hlocal.hopsOf, fun s steps => ?_⟩
  have hmem := Session.remembers_after colored acts []
  obtain ⟨bs, hglobals⟩ := hmem.heap.globals
  have hrenamed := renamed_of_renamesLocal_stmts program .topLevel hrefs hdecls hfindings hlocal
  have hdepth : Depth [] ((Session.start colored).after acts).memory.heap.frames
      ((Session.start colored).after acts).memory.frame none := by
    rw [hmem.frame]
    exact .root hglobals List.not_mem_nil
  exact Memory.seenAlike_perform hmem.heap.alike (.run hdepth hrenamed) s steps

instance (p : ReferenceKind × Reference) : Decidable (φ.Admits p) :=
  decidable_of_iff (p.2.hops = none ∧ (∀ word ∈ p.1.keyword?, p.2.name.lexeme = word) ∧
      p.2.name.lexeme ≠ φ.new)
    ⟨fun ⟨hops, keyword, fresh⟩ => ⟨⟨hops, keyword⟩, fresh⟩,
      fun ⟨⟨hops, keyword⟩, fresh⟩ => ⟨hops, keyword, fresh⟩⟩

/-- A parameter that a closure assigns, and whose name is declared again in a block inside. -/
theorem renamed_local_seen_alike_of_shadowed :
    ∃ (φ : Renaming) (program resolved renamed : List Stmt) (D : Token),
      (Grammar.readProgram 40 (scan (String.toList
        "fun f(x) { fun g() { x = true; } { var x = nil; print x; } g(); return x; } print f(nil);"
        )).tokens).value? =
          some program ∧
      φ.old = "x" ∧ φ.new = "y" ∧ resolveProgram program = (resolved, []) ∧
      D ∈ stmtLocals resolved ∧ D.lexeme = φ.old ∧
      RenamesLocal φ D (.stmts resolved) (.stmts renamed) ∧
      resolveProgram (bareStmts renamed) = (renamed, []) ∧
      SeenAlike (Memory.initial.interpret ⟨100, fun _ => 0⟩ 1000 resolved)
        (Memory.initial.interpret ⟨100, fun _ => 0⟩ 1000 renamed) := by
  obtain ⟨φ, hold, hnew⟩ : ∃ φ : Renaming, φ.old = "x" ∧ φ.new = "y" :=
    ⟨⟨"x", "y", by decide +kernel, by decide +kernel⟩, rfl, rfl⟩
  obtain ⟨program, hread, hreports, hlocals, hrefs, hdecls⟩ : ∃ program,
      (Grammar.readProgram 40 (scan (String.toList
        "fun f(x) { fun g() { x = true; } { var x = nil; print x; } g(); return x; } print f(nil);"
        )).tokens).value? =
          some program ∧
      (resolveProgram program).2 = [] ∧
      (⟨.identifier, "x", none, 1, 7⟩ : Token) ∈ stmtLocals (resolveProgram program).1 ∧
      (∀ p ∈ stmtReferences program, p.2.hops = none ∧
        (∀ word ∈ p.1.keyword?, p.2.name.lexeme = word) ∧ p.2.name.lexeme ≠ "y") ∧
      ∀ t ∈ stmtDeclarations program, t.lexeme ≠ "y" :=
    ⟨_, (Option.some_get (by decide +kernel)).symm, by decide +kernel, by decide +kernel,
      by decide +kernel, by decide +kernel⟩
  have haccepted : resolveProgram program = ((resolveProgram program).1, []) :=
    Prod.ext rfl hreports
  have hadmits : ∀ p ∈ stmtReferences program, φ.Admits p := fun p hp =>
    have ⟨hops, keyword, fresh⟩ := hrefs p hp
    ⟨⟨hops, keyword⟩, hnew ▸ fresh⟩
  obtain ⟨⟨renamed, hlocal⟩, hall⟩ := renamed_local_seen_alike false [] haccepted hadmits
    (hnew ▸ hdecls) hlocals hold.symm
  obtain ⟨hrenamed, -, hseen⟩ := hall renamed hlocal
  exact ⟨φ, program, _, renamed, _, hread, hold, hnew, haccepted, hlocals, hold.symm, hlocal,
    hrenamed, hseen ⟨100, fun _ => 0⟩ 1000⟩

end LoxLang
