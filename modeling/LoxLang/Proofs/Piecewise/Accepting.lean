import LoxLang.Proofs.Parsing.Sound
import LoxLang.Proofs.Parsing.Written
import LoxLang.Proofs.Piecewise.Deriving
import LoxLang.Proofs.Piecewise.Resolving
import LoxLang.Proofs.Piecewise.Sources
import LoxLang.Proofs.StaticAcceptance

/-!
# Acceptance of sources in two parts

A source behind another one is read as it is read by itself, further down (`lowered`), and both
parts are accepted together if each is accepted by itself (`ProgramAccepted.append`).
-/

namespace LoxLang

/-! ## Empty lines in front -/

theorem Token.down_down (j k : Nat) (t : Token) : (t.down j).down k = t.down (j + k) := by
  simp only [down, Nat.add_assoc]

/-- A source with so many empty lines in front. -/
def lowered (k : Nat) (source : String) : String :=
  String.ofList (List.replicate k '\n' ++ source.toList)

theorem lowered_zero (source : String) : lowered 0 source = source := by
  simp [lowered]

theorem lowered_lowered (j k : Nat) (source : String) :
    lowered k (lowered j source) = lowered (j + k) source := by
  simp only [lowered, String.toList_ofList, ← List.append_assoc, List.replicate_append_replicate,
    Nat.add_comm]

theorem scan_lowered (k : Nat) (source : String) :
    words (lowered k source).toList = (words source.toList).map (.down k) ∧
      ((scan source.toList).reports = [] → (scan (lowered k source).toList).reports = []) := by
  induction k with
  | zero =>
    rw [lowered_zero]
    exact ⟨(List.map_id _).symm, id⟩
  | succ k ih =>
    have hline : (lowered (k + 1) source).toList = [] ++ '\n' :: (lowered k source).toList := by
      simp only [lowered, String.toList_ofList, List.replicate_succ, List.cons_append,
        List.nil_append]
    obtain ⟨hwords, hreports⟩ := @scan_append_newline [] (lowered k source).toList rfl
    rw [hline]
    refine ⟨?_, fun h => hreports (ih.2 h)⟩
    rw [hwords, ih.1, List.map_map]
    exact List.map_congr_left fun t _ => t.down_down k 1

/-! ## Resolution in two parts -/

theorem Stmt.scopes_resolve_topLevel (around : Enclosing) :
    ∀ s : Stmt, (s.resolve around []).scopes = []
  | .missing | .block _ | .classDecl .. | .expression _ | .function _ | .print _ | .returning ..
  | .varDecl .. => by simp only [resolve, Scope.introduce, Scope.declare, Scope.define]
  | .ifElse _ t e => by
    simp only [resolve, t.scopes_resolve_topLevel around, e.scopes_resolve_topLevel around]
  | .whileLoop _ b => by simp only [resolve, b.scopes_resolve_topLevel around]

/-- The statements of a program are resolved one by one: the globals are not tracked. -/
theorem resolveProgram_append (ss ss' : List Stmt) :
    resolveProgram (ss ++ ss') = ((resolveProgram ss).1 ++ (resolveProgram ss').1,
      (resolveProgram ss).2 ++ (resolveProgram ss').2) := by
  induction ss with
  | nil => simp [resolveProgram, resolveStmts]
  | cons s ss ih =>
    simp only [resolveProgram, Prod.mk.injEq] at ih
    simp only [resolveProgram, List.cons_append, resolveStmts, s.scopes_resolve_topLevel, ih.1,
      List.map_append, ih.2, List.append_assoc]

/-! ## Reports before a run -/

theorem Segment.static_of_report? (h : report? p s = some r) : r.kind = .static := by
  cases s with
  | stray | unclosed => cases h; rfl
  | _ => cases h

theorem Adds.static_reverse (h : Adds [] made) : ∀ r ∈ made.reverse, r.kind = .static := by
  obtain ⟨rs, rfl, hrs⟩ := h
  simpa using hrs

namespace Grammar

theorem sound_wholeExpression (room : Nat) :
    Rule.Sound (fun e ts rest => Derives room (.expression e) ts ∧ rest = [])
      (wholeExpression room) := by
  refine (sound_expression room).next fun e us => .atEnd fun b => ?_
  cases b with
  | true => exact Rule.sound_pure fun rest hend he => ⟨by rwa [List.append_nil], hend rfl⟩
  | false => exact Rule.sound_reject

end Grammar

theorem static_of_scan (cs : List Char) : ∀ r ∈ (scan cs).reports, r.kind = .static := by
  intro r hr
  obtain ⟨⟨p, s⟩, -, hs⟩ := List.mem_filterMap.1 hr
  exact Segment.static_of_report? hs

/-! ## Acceptance in two parts -/

namespace ProgramAccepted
open Grammar

variable {room levels : Nat} {source : String} {program : List Stmt}

theorem scanned (h : ProgramAccepted room levels source program) :
    (scan source.toList).reports = [] := by
  have hreports := h.reports
  simp only [programReports, List.append_eq_nil_iff] at hreports
  exact hreports.1.1

theorem resolved (h : ProgramAccepted room levels source program) :
    (resolveProgram program).2 = [] := by
  have hreports := h.reports
  simp only [programReports, List.append_eq_nil_iff] at hreports
  exact hreports.2

/-- The program is no deeper than the walk may go. -/
theorem height_le (h : ProgramAccepted room levels source program) :
    stmtsHeight program ≤ levels := (stopped_walkProgram_iff ..).1 h.walked

theorem derives (h : ProgramAccepted room levels source program) :
    Derives room (.program program) (words source.toList) := by
  have hreports := h.reports
  simp only [programReports, List.append_eq_nil_iff] at hreports
  have hread := Reading.finished_of_value? h.read hreports.1.2
  rw [tokens_scan] at hread
  exact derives_of_readProgram (fun _ => kind_ne_eof_of_mem_words) rfl hread

/-- A source without reports from the scanner whose tokens derive a program that can be resolved. -/
theorem of_derives (hscan : (scan source.toList).reports = [])
    (hd : Derives room (.program program) (words source.toList))
    (hheight : stmtsHeight program ≤ levels) (hresolved : (resolveProgram program).2 = []) :
    ProgramAccepted room levels source program := by
  have hstop : (Token.endOf source.toList).kind = .eof := rfl
  have hread := readProgram_of_derives hd (Nat.le_refl room) hstop
  rw [← tokens_scan] at hread
  refine ⟨by rw [hread]; rfl, (stopped_walkProgram_iff ..).2 hheight, ?_⟩
  rw [programReports, hread, hscan, hresolved]
  rfl

theorem eq (h : ProgramAccepted room levels source program)
    (h' : ProgramAccepted room levels source program') : program' = program :=
  Option.some.inj (h'.read.symm.trans h.read)

/-- A program further down is accepted as it is at its own place. -/
theorem lowered (h : ProgramAccepted room levels source program)
    (hP : ∀ t ∈ words source.toList, P.rel t (t.down k)) :
    ∃ program', ProgramAccepted room levels (lowered k source) program' ∧
      Matches P (.stmts program) (.stmts program') := by
  obtain ⟨program', hm, hd⟩ := h.derives.put (f := .down k) hP
  obtain ⟨hwords, hreports⟩ := scan_lowered k source
  rw [Token.put_down, ← hwords] at hd
  exact ⟨program', of_derives (hreports h.scanned) hd (hm.height.trans_le h.height_le)
    (hm.resolveProgram.2 h.resolved), hm⟩

/-- A program on the lines behind another one. -/
theorem append (h : ProgramAccepted room levels first program)
    (h' : ProgramAccepted room levels source program')
    (hbelow : ProgramAccepted room levels
      (LoxLang.lowered (Text.lines first.toList).length source) below) :
    ProgramAccepted room levels (first ++ "\n" ++ source) (program ++ below) := by
  have hchars : (first ++ "\n" ++ source).toList = first.toList ++ '\n' :: source.toList := by
    simp
  obtain ⟨hwords, hreports⟩ := @scan_append_newline _ source.toList h.scanned
  rw [← (scan_lowered _ source).1] at hwords
  refine of_derives ?_ ?_ ?_ ?_
  · rw [hchars]
    exact hreports h'.scanned
  · rw [hchars, hwords]
    exact h.derives.append hbelow.derives
  · rw [stmtsHeight_append]
    exact Nat.max_le.2 ⟨h.height_le, hbelow.height_le⟩
  · rw [resolveProgram_append, h.resolved, hbelow.resolved]
    rfl

end ProgramAccepted

end LoxLang
