import Mathlib.Logic.Function.Iterate
import LoxLang.Proofs.ImmutableStructure
import LoxLang.Proofs.RepeatedWalks

/-!
# The table of resolution

Every reference in a source is a node of its own, known by the act whose source it stands in and by
its place there (`NodeId`), and the numbers of scopes that the walk of the resolver gives are
recorded in one table for the whole session (`Session.table`), also those that it gave in a source
that is rejected and those that it gave before it was stopped. An entry that is recorded stays,
whatever acts follow; the references that a machine has before it, in its task, in what waits and in
the functions of its heap, are nodes of sources of the session, each with the number in the table.
To walk again over a tree that the walk has left leaves it as it is and repeats the same reports
(`resolution_fixed`).
-/

namespace LoxLang

/-! ## Resolving again -/

/-- What the walk over a root leaves, and the reports on it. -/
def Node.resolution (levels : Nat) : Node → Node × List Report
  | stmts ss => (.stmts (walkProgram levels ss).tree, (walkProgram levels ss).reports)
  | expr e => (.expr (walkExpression levels e).tree, (walkExpression levels e).reports)
  | n => (n, [])

/-- The walk over a root that it has been over already changes nothing, and the reports are the
same. -/
theorem Node.resolution_resolution (levels : Nat) (n : Node) :
    (n.resolution levels).1.resolution levels = n.resolution levels := by
  cases n with
  | stmts ss => simp only [resolution, walkProgram, walkStmts_walk]
  | expr e => simp only [resolution, walkExpression, e.walk_walk]
  | _ => rfl

theorem Node.resolution_iterate (levels : Nat) (n : Node) (times : Nat) :
    (fun r => r.1.resolution levels)^[times] (n.resolution levels) = n.resolution levels :=
  Function.iterate_fixed (n.resolution_resolution levels) times

/-- The references of a root that was walked over are those of the root, one for one. -/
theorem Node.references_resolution (levels : Nat) (n : Node) :
    (n.resolution levels).1.references.map bareReference = n.references.map bareReference := by
  cases n with
  | stmts ss =>
    show (stmtReferences (walkStmts ..).tree).map _ = (stmtReferences ss).map _
    rw [← stmtReferences_bare, bareStmts_walk, stmtReferences_bare]
  | expr e =>
    show (Expr.references (e.walk ..).tree).map _ = e.references.map _
    rw [← Expr.references_bare, Expr.bare_walk, Expr.references_bare]
  | _ => rfl

/-! ## The table -/

/-- A reference in the sources of a session: the act in whose source it stands, and its place among
the references of the source. -/
structure NodeId where
  act : Nat
  place : Nat

/-- The number of scopes that is recorded for each node, if there is one. -/
def Table := NodeId → Option Nat

namespace Table

def empty : Table := fun _ => none

/-- Records the numbers of a resolved source. What is recorded already stays. -/
def record (act : Nat) (references : List (ReferenceKind × Reference)) (t : Table) : Table :=
  fun n => t n <|> if n.act = act then references[n.place]?.bind (·.2.hops) else none

theorem record_of_ne (t : Table) (rs : List (ReferenceKind × Reference)) {n : NodeId}
    (hn : n.act ≠ act) : t.record act rs n = t n := by
  simp [record, hn]

theorem record_of_fresh (t : Table) (rs : List (ReferenceKind × Reference)) {n : NodeId}
    (hn : t n = none) (hact : n.act = act) :
    t.record act rs n = rs[n.place]?.bind (·.2.hops) := by
  simp [record, hn, hact]

end Table

/-- How many nodes deep the walk over the source of an act may go. -/
def Act.levels : Act → Nat
  | run _ cfg _ _ | evaluate _ cfg _ _ => cfg.levels
  | _ => 0

namespace Session

/-- The root that an act gets to resolve, if no report has come before. -/
def root? (s : Session) : Act → Option Node
  | .run _ cfg _ source =>
    let scanned := scan source.toList
    let reading := Grammar.readProgram cfg.room scanned.tokens
    if s.log.hadError || !(scanned.reports ++ reading.reports).isEmpty then none
    else reading.value?.map .stmts
  | .evaluate _ cfg _ source =>
    let scanned := scan source.toList
    let reading := Grammar.readExpression cfg.room scanned.tokens
    if s.log.hadError || !(scanned.reports ++ reading.reports).isEmpty then none
    else reading.value?.join.map .expr
  | _ => none

/-- The references of the source of an act as the walk of the resolver leaves them. -/
def resolved (s : Session) (a : Act) : List (ReferenceKind × Reference) :=
  match s.root? a with
  | none => []
  | some root => (root.resolution a.levels).1.references

/-- Records what acts resolve, the next act having a number. -/
def recordFrom (s : Session) (k : Nat) (t : Table) : List Act → Table
  | [] => t
  | a :: acts => (s.act a).recordFrom (k + 1) (t.record k (s.resolved a)) acts

/-- What is recorded after some acts. -/
def table (s : Session) (acts : List Act) : Table := s.recordFrom 0 .empty acts

/-- The reference at a node of the sources of some acts, as it is resolved. -/
def reference? (s : Session) (acts : List Act) (n : NodeId) : Option (ReferenceKind × Reference) :=
  acts[n.act]?.bind fun a => ((s.after (acts.take n.act)).resolved a)[n.place]?

/-! What acts record is found under their own numbers. -/

theorem recordFrom_of_lt (acts : List Act) {s : Session} {t : Table} {n : NodeId}
    (hn : n.act < k) : s.recordFrom k t acts n = t n := by
  induction acts generalizing s k t with
  | nil => rfl
  | cons a acts ih =>
    rw [recordFrom, ih (Nat.lt_succ_of_lt hn), Table.record_of_ne t _ (Nat.ne_of_lt hn)]

theorem recordFrom_of_ge (acts : List Act) {s : Session} {t : Table} {n : NodeId}
    (hn : k + acts.length ≤ n.act) : s.recordFrom k t acts n = t n := by
  induction acts generalizing s k t with
  | nil => rfl
  | cons a acts ih =>
    rw [List.length_cons] at hn
    rw [recordFrom, ih (by omega), Table.record_of_ne t _ (by omega)]

theorem recordFrom_append (acts later : List Act) (s : Session) (t : Table) :
    s.recordFrom k t (acts ++ later) =
      (s.after acts).recordFrom (k + acts.length) (s.recordFrom k t acts) later := by
  induction acts generalizing s k t with
  | nil => rfl
  | cons a acts ih =>
    rw [List.cons_append, recordFrom, ih, List.length_cons, Nat.add_comm acts.length,
      ← Nat.add_assoc]
    rfl

variable {s : Session} {acts : List Act} {n : NodeId}

/-- Later acts change no entry, remove none and add none for earlier sources. -/
theorem table_append (s : Session) (hn : n.act < acts.length) (later : List Act) :
    s.table (acts ++ later) n = s.table acts n := by
  rw [table, recordFrom_append, recordFrom_of_lt later (by omega)]
  rfl

/-- After its own act, the entry of a node is the number that its reference got. -/
theorem table_concat (s : Session) (hn : n.act = acts.length) :
    s.table (acts ++ [a]) n = ((s.after acts).resolved a)[n.place]?.bind (·.2.hops) := by
  have hfresh : s.recordFrom 0 .empty acts n = none := by
    rw [recordFrom_of_ge acts (by omega)]
    rfl
  rw [table, recordFrom_append]
  exact Table.record_of_fresh _ _ hfresh (by omega)

/-- What a source has resolved is recorded, so to record it again changes nothing. -/
theorem record_table (s : Session) (acts : List Act) (a : Act) (later : List Act) :
    (s.table (acts ++ a :: later)).record acts.length ((s.after acts).resolved a) =
      s.table (acts ++ a :: later) := by
  funext n
  by_cases hn : n.act = acts.length
  · have hentry : s.table (acts ++ a :: later) n =
        ((s.after acts).resolved a)[n.place]?.bind (·.2.hops) := by
      rw [List.append_cons, table_append s (by simp [hn]), table_concat s hn]
    simp [Table.record, hn, hentry]
  · exact Table.record_of_ne _ _ hn

theorem reference?_concat (s : Session) (hn : n.act = acts.length) :
    s.reference? (acts ++ [a]) n = ((s.after acts).resolved a)[n.place]? := by
  simp [reference?, hn]

theorem reference?_append (h : s.reference? acts n = some r) (later : List Act) :
    s.reference? (acts ++ later) n = some r := by
  obtain ⟨a, ha, hr⟩ := Option.bind_eq_some_iff.1 h
  have hn := (List.getElem?_eq_some_iff.1 ha).1
  rw [reference?, List.getElem?_append_left hn, List.take_append_of_le_length (Nat.le_of_lt hn)]
  exact Option.bind_eq_some_iff.2 ⟨a, ha, hr⟩

/-- The entry of a node is the number of its reference, if it got one. -/
theorem table_eq (s : Session) (hn : n.act < acts.length) :
    s.table acts n = (s.reference? acts n).bind (·.2.hops) := by
  have hlength : n.act = (acts.take n.act).length := by rw [List.length_take]; omega
  calc s.table acts n
    _ = s.table (acts.take n.act ++ [acts[n.act]] ++ acts.drop (n.act + 1)) n := by simp
    _ = s.table (acts.take n.act ++ [acts[n.act]]) n := table_append s (by simp; omega) _
    _ = (s.reference? acts n).bind (·.2.hops) := by
      rw [table_concat s hlength, reference?, List.getElem?_eq_getElem hn, Option.bind_some]

theorem table_of_reference? (h : s.reference? acts n = some r) (later : List Act) :
    s.table (acts ++ later) n = r.2.hops := by
  obtain ⟨a, ha, -⟩ := Option.bind_eq_some_iff.1 h
  have hn := (List.getElem?_eq_some_iff.1 ha).1
  rw [table_append s hn, table_eq s hn, h, Option.bind_some]

/-! ## The references that are held -/

/-- The references of the task of an act are those that it has resolved. -/
theorem references_of_task? (h : s.task? a = some (cfg, task)) :
    task.references = s.resolved a := by
  -- Reports of the resolver come behind those that keep it from resolving.
  have hclean {flag stopped : Bool} {rs gs : List Report}
      (h : ¬(flag || stopped || !(rs ++ gs).isEmpty)) :
      stopped = false ∧ ¬(flag || !rs.isEmpty) := by
    simp only [Bool.or_eq_true, not_or, Bool.not_eq_true, Bool.not_eq_false', List.isEmpty_iff,
      List.append_eq_nil_iff] at h ⊢
    exact ⟨h.1.2, h.1.1, h.2.1⟩
  cases a with
  | run guarded cfg' path source =>
    simp only [task?] at h
    split at h
    · cases h
    · next program hread =>
      split at h
      · cases h
      · next hreports =>
        cases h
        obtain ⟨hwalked, hfront⟩ := hclean hreports
        simp only [resolved, root?, hread, if_neg hfront]
        show stmtReferences _ = stmtReferences (walkProgram cfg.levels program).tree
        rw [(walkProgram_eq hwalked).1]
        rfl
  | evaluate guarded cfg' path source =>
    simp only [task?] at h
    split at h
    · next e hread =>
      split at h
      · cases h
      · next hreports =>
        cases h
        obtain ⟨hwalked, hfront⟩ := hclean hreports
        simp only [resolved, root?, hread, if_neg hfront]
        show Expr.references _ = Expr.references (walkExpression cfg.levels e).tree
        rw [(walkExpression_eq hwalked).1]
        rfl
    · cases h
  | tokens | reset => cases h

/-- A reference of the task of one of some acts is at a node of their sources. -/
theorem exists_reference? (h : (s.after acts).task? a = some (cfg, task))
    (hr : r ∈ task.references) (later : List Act) :
    ∃ n, s.reference? (acts ++ a :: later) n = some r := by
  rw [references_of_task? h] at hr
  obtain ⟨i, hi⟩ := List.mem_iff_getElem?.1 hr
  have hnode : s.reference? (acts ++ [a]) ⟨acts.length, i⟩ = some r :=
    (reference?_concat s rfl).trans hi
  rw [List.append_cons]
  exact ⟨_, reference?_append hnode later⟩

end Session

/-- At every moment the references that are held are at nodes of the sources. -/
theorem Moment.holds (h : Moment colored acts a m log) :
    m.Holds fun r => ∃ n, (Session.start colored).reference? (acts ++ [a]) n = some r := by
  obtain ⟨k, hmachine, -⟩ := h.met
  obtain ⟨⟨cfg, task⟩, ht, rfl⟩ := Option.map_eq_some_iff.1 hmachine
  have htasks : ∀ before b later, acts = before ++ b :: later → ∀ cfg t,
      ((Session.start colored).after before).task? b = some (cfg, t) →
        ∀ r ∈ t.references, ∃ n, (Session.start colored).reference? (acts ++ [a]) n = some r := by
    rintro before b later rfl cfg t ht r hr
    rw [List.append_assoc]
    exact Session.exists_reference? ht hr (later ++ [a])
  have hmet := Session.met_of_tasks colored acts htasks fun r hr =>
    Session.exists_reference? ht hr []
  exact (hmet.later (Machine.later_run ..)).holds fun _ h => h

/-- Resolution entries are fixed for the life of a session. Whatever acts follow, no entry for a
node of an earlier source is changed, removed or added: it is the number that the reference got when
its own source was resolved, if it got one. The references of a source are nodes of their own, one
for one, also where they read the same. To resolve a source again, any number of times, gives the
same tree and the same reports and leaves the table as it is. At every moment all references that a
machine has before it are nodes of the sources so far, with the numbers that the table has for them
then and later. -/
theorem resolution_fixed (colored : Bool) (acts : List Act) (a : Act) (later : List Act) :
    let s := Session.start colored
    (∀ n : NodeId, n.act < acts.length →
      s.table (acts ++ later) n = s.table acts n ∧
        s.table acts n = (s.reference? acts n).bind (·.2.hops)) ∧
    (∀ root, (s.after acts).root? a = some root →
      let resolution := root.resolution a.levels
      (resolution.1.references.map bareReference = root.references.map bareReference ∧
        ∀ i, s.reference? (acts ++ [a]) ⟨acts.length, i⟩ = resolution.1.references[i]?) ∧
      ∀ times : Nat,
        let again := (fun r => r.1.resolution a.levels)^[times] resolution
        again = resolution ∧
          (s.table (acts ++ a :: later)).record acts.length again.1.references =
            s.table (acts ++ a :: later)) ∧
    ∀ m log, Moment colored acts a m log →
      m.Holds fun r => ∃ n, s.reference? (acts ++ [a]) n = some r ∧
        s.table (acts ++ a :: later) n = r.2.hops := by
  intro s
  refine ⟨fun n hn => ⟨Session.table_append s hn later, Session.table_eq s hn⟩,
    fun root hroot => ?_, fun m log hm => ?_⟩
  · have hresolved : (s.after acts).resolved a = (root.resolution a.levels).1.references := by
      rw [Session.resolved, hroot]
    refine ⟨⟨root.references_resolution _, fun i => ?_⟩, fun times => ?_⟩
    · rw [Session.reference?_concat s rfl, hresolved]
    · simp only [Node.resolution_iterate, ← hresolved, true_and]
      exact Session.record_table s acts a later
  · refine hm.holds.mono fun r ⟨n, hr⟩ => ⟨n, hr, ?_⟩
    rw [List.append_cons]
    exact Session.table_of_reference? hr later

/-- In the first source a name is read as a global and, in a closure behind a declaration, as a
local variable; the second source is rejected when it has been resolved, and the third one because
it is nested too deeply for the walk, which has come by one reference and not by the other. Then the
closure is called. -/
theorem resolution_fixed_of_closure :
    let cfg : Config := ⟨40, 40, ⟨100, fun _ => 0⟩, 1000⟩
    let s := Session.start false
    let acts : List Act := [
      .run true cfg "a.lox" "var a; var g; { a; var a = nil; fun f() { a; } g = f; }",
      .run true cfg "b.lox" "{ var a = a; }", .reset,
      .run true { cfg with levels := 3 } "c.lox" "{ var a; a; !!a; }", .reset]
    let a : Act := .run true cfg "d.lox" "g();"
    let later : List Act := [.evaluate true cfg "e.lox" "a"]
    (s.table (acts ++ later) ⟨0, 0⟩ = none ∧ s.table (acts ++ later) ⟨0, 1⟩ = some 1 ∧
      s.table (acts ++ later) ⟨1, 0⟩ = some 0 ∧ s.table (acts ++ later) ⟨3, 0⟩ = some 0 ∧
      s.table (acts ++ later) ⟨3, 1⟩ = none) ∧
    (∃ root, (s.after acts).root? a = some root ∧
      ∀ times : Nat, (s.table (acts ++ a :: later)).record acts.length
          ((fun r => r.1.resolution a.levels)^[times] (root.resolution a.levels)).1.references =
        s.table (acts ++ a :: later)) ∧
    ∃ m log r, (Moment false acts a m log ∧ r ∈ m.control.references ∧ r.2.hops = some 1) ∧
      ∃ n, s.reference? (acts ++ [a]) n = some r ∧ s.table (acts ++ a :: later) n = some 1 := by
  intro cfg s acts a later
  have hlocal : ((s.after acts).machine? a 7).any fun m =>
      m.control.references.any fun r => r.2.hops = some 1 := by
    decide +kernel
  have hroot : ((s.after acts).root? a).isSome := by decide +kernel
  have hentries : (s.reference? acts ⟨0, 0⟩).bind (·.2.hops) = none ∧
      (s.reference? acts ⟨0, 1⟩).bind (·.2.hops) = some 1 ∧
      (s.reference? acts ⟨1, 0⟩).bind (·.2.hops) = some 0 ∧
      (s.reference? acts ⟨3, 0⟩).bind (·.2.hops) = some 0 ∧
      (s.reference? acts ⟨3, 1⟩).bind (·.2.hops) = none := by
    decide +kernel
  obtain ⟨hglobal, hclosure, hrejected, hreached, hleft⟩ := hentries
  obtain ⟨hfixed, hagain, hholds⟩ := resolution_fixed false acts a later
  have hentry {n : NodeId} (hn : n.act < acts.length) :
      s.table (acts ++ later) n = (s.reference? acts n).bind (·.2.hops) :=
    (hfixed n hn).1.trans (hfixed n hn).2
  obtain ⟨root, hroot⟩ := Option.isSome_iff_exists.1 hroot
  obtain ⟨m, log, hmoment, h⟩ := Moment.exists_of_any hlocal
  obtain ⟨r, hr, hhops⟩ := List.any_eq_true.1 h
  have hnumber : r.2.hops = some 1 := of_decide_eq_true hhops
  obtain ⟨n, hn, htable⟩ := (hholds m log hmoment).pends.control r hr
  exact ⟨⟨(hentry (by decide)).trans hglobal, (hentry (by decide)).trans hclosure,
    (hentry (by decide)).trans hrejected, (hentry (by decide)).trans hreached,
    (hentry (by decide)).trans hleft⟩,
    ⟨root, hroot, fun times => ((hagain root hroot).2 times).2⟩,
    m, log, r, ⟨hmoment, hr, hnumber⟩, n, hn, htable.trans hnumber⟩

end LoxLang
