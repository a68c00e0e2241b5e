import LoxLang.Lexical.Segment
import LoxLang.Report

/-!
# Scanning

The tokens and reports of a source (`scan`). Segments are placed one after the other
(`Place.ofSegments`); lexemes become tokens at the place of their first character, stray characters
and unclosed strings become reports, blanks and comments only move the place. The end of the source
is a token of its own.
-/

namespace LoxLang

/-- The place of a character: line and column, both counted from 1. -/
structure Place where
  line : Nat
  column : Nat
deriving DecidableEq

namespace Place

def start : Place := ⟨1, 1⟩

/-- The place after a character. Only a newline begins a new line. -/
def step (p : Place) (c : Char) : Place :=
  if c = '\n' then ⟨p.line + 1, 1⟩ else ⟨p.line, p.column + 1⟩

/-- The place after a text. -/
def after (p : Place) (cs : List Char) : Place := cs.foldl step p

theorem after_append (p : Place) (cs ds : List Char) :
    p.after (cs ++ ds) = (p.after cs).after ds := List.foldl_append

/-- The place of each segment when the first one stands at `p`, behind those already placed, which
are listed last one first. -/
def assign (p : Place) : List Segment → List (Place × Segment) → List (Place × Segment)
  | [], acc => acc.reverse
  | s :: rest, acc => assign (p.after s.text) rest ((p, s) :: acc)

/-- The place of each segment when the first one stands at `p`. -/
def ofSegments (p : Place) (ss : List Segment) : List (Place × Segment) := assign p ss []

theorem assign_eq (p : Place) (ss : List Segment) (acc : List (Place × Segment)) :
    assign p ss acc = acc.reverse ++ ofSegments p ss := by
  induction ss generalizing p acc with
  | nil => simp [assign, ofSegments]
  | cons s rest ih => simp only [ofSegments, assign]; rw [ih, ih _ [(p, s)]]; simp

@[simp] theorem ofSegments_nil (p : Place) : ofSegments p [] = [] := rfl

@[simp] theorem ofSegments_cons (p : Place) (s : Segment) (rest : List Segment) :
    ofSegments p (s :: rest) = (p, s) :: ofSegments (p.after s.text) rest := by
  rw [ofSegments, assign, assign_eq]; rfl

theorem mem_ofSegments {p : Place} {ss : List Segment} {q : Place × Segment}
    (h : q ∈ ofSegments p ss) : q.2 ∈ ss := by
  induction ss generalizing p with
  | nil => cases h
  | cons s ss ih =>
    rw [ofSegments_cons] at h
    rcases List.mem_cons.1 h with rfl | h
    · exact List.mem_cons_self
    · exact List.mem_cons_of_mem _ (ih h)

end Place

namespace Segment

/-- The token of a segment that is a lexeme. -/
def token? (p : Place) : Segment → Option Token
  | lexeme kind text literal => some ⟨kind, String.ofList text, literal, p.line, p.column⟩
  | _ => none

/-- The report of a segment that has no meaning. A string that is never closed is reported on the
last line, where its closing quote was missed. -/
def report? (p : Place) : Segment → Option Report
  | stray c => some (.onLine p.line ("Unexpected character: " ++ String.ofList [c]))
  | unclosed text => some (.onLine (p.after text).line "Unterminated string.")
  | _ => none

end Segment

/-- What scanning a source yields. The last token is the end of the source, and the only one of its
kind. -/
structure Scan where
  tokens : List Token
  reports : List Report

/-- The token that stands for the end of a source. -/
def Token.endOf (source : List Char) : Token :=
  let p := Place.start.after source
  ⟨.eof, "", none, p.line, p.column⟩

/-- Scans a source. Scanning never fails: a report is made and the next segment is taken. -/
def scan (source : List Char) : Scan :=
  let placed := Place.start.ofSegments (segments source)
  { tokens := placed.filterMap (fun (p, s) => s.token? p) ++ [Token.endOf source]
    reports := placed.filterMap fun (p, s) => s.report? p }

/-- A token as a token list shows it: kind, lexeme and constant. -/
def Token.listing (t : Token) : String :=
  let literal := match t.literal with
    | none | some .nil => "null"
    | some (.bool true) => "true"
    | some (.bool false) => "false"
    | some (.number x) => Number.listing x
    | some (.string s) => s
  t.kind.name ++ " " ++ t.lexeme ++ " " ++ literal

end LoxLang
