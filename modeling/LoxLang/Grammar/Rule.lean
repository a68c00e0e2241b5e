import LoxLang.Report
import LoxLang.Tree

/-!
# Rules of the grammar

Rules are functions on what is left of the tokens (`Rule`). A rule reads a piece and leaves the
rest, or gives up after making a report (`reject`), or stops because the text is nested too deeply
(`tooDeep`). Giving up is caught at the next declaration around; stopping ends the whole reading.
Only the token at the front is ever looked at (`peek`), and the end of the text is not consumed.
-/

namespace LoxLang

/-- Where a reading stands: the tokens before the end that are still to be read, and the reports
made, the last one first. -/
structure Cursor where
  rest : List Token
  made : List Report

/-- How a rule comes out. -/
inductive Outcome (α : Type) where
  | read (value : α) (next : Cursor)
  | gaveUp (next : Cursor)
  | tooDeep (made : List Report)

/-- A rule for pieces of kind `α`. It is given the token that stands for the end of the text. -/
def Rule (α : Type) := Token → Cursor → Outcome α

namespace Rule

variable {α β : Type}

/-- The rule that reads nothing. -/
@[inline] protected def pure (a : α) : Rule α := fun _ c => .read a c

/-- One rule after another. -/
@[inline] protected def bind (p : Rule α) (f : α → Rule β) : Rule β := fun stop c =>
  match p stop c with
  | .read a next => f a stop next
  | .gaveUp next => .gaveUp next
  | .tooDeep made => .tooDeep made

instance : Monad Rule where
  pure := Rule.pure
  bind := Rule.bind

/-- The rule for text that is nested too deeply. -/
def tooDeep : Rule α := fun _ c => .tooDeep c.made

/-- The tokens left. A loop that reads a token at every turn takes no more turns than these. -/
def remaining : Rule (List Token) := fun _ c => .read c.rest c

/-- Whether all tokens are read. -/
def atEnd : Rule Bool := fun _ c => .read c.rest.isEmpty c

/-- The token at the front, or the end. -/
def peek : Rule Token := fun stop c => .read (c.rest.headD stop) c

/-- Makes a report and reads on. -/
def complain (token : Token) (message : String) : Rule Unit := fun _ c =>
  .read () ⟨c.rest, .atToken token message :: c.made⟩

/-- Makes a report at the token at the front and gives up. -/
def reject (message : String) : Rule α := fun stop c =>
  .gaveUp ⟨c.rest, .atToken (c.rest.headD stop) message :: c.made⟩

/-- Whether the token at the front has one of the kinds. -/
def sees (kinds : List TokenKind) : Rule Bool := fun _ c =>
  match c.rest with
  | [] => .read false c
  | t :: _ => .read (kinds.contains t.kind) c

/-- Reads the token at the front if it has one of the kinds. -/
def accept (kinds : List TokenKind) : Rule (Option Token) := fun _ c =>
  match c.rest with
  | [] => .read none c
  | t :: rest => if kinds.contains t.kind then .read (some t) ⟨rest, c.made⟩ else .read none c

/-- Reads a token of the kind, or gives up. -/
def expect (kind : TokenKind) (message : String) : Rule Token := do
  match ← accept [kind] with
  | some t => pure t
  | none => reject message

/-- Pieces one after the other as long as the text goes on and the front has none of the kinds. The
pieces read so far come last one first; each piece has at least one token. -/
def piecesInto (until_ : List TokenKind) (p : Rule α) : List Token → List α → Rule (List α)
  | [], acc => pure acc.reverse
  | _ :: turns, acc => do
    if (← atEnd) || (← sees until_) then pure acc.reverse
    else piecesInto until_ p turns ((← p) :: acc)

/-- Pieces one after the other up to a token of one of the kinds or the end. -/
def piecesUntil (until_ : List TokenKind) (p : Rule α) : Rule (List α) := do
  piecesInto until_ p (← remaining) []

/-- Further pieces with a comma in front of each. From the 256th piece on each one is complained
about, and read all the same. -/
def furtherInto (complaint : String) (p : Rule α) : List Token → List α → Rule (List α)
  | [], acc => pure acc.reverse
  | _ :: turns, acc => do
    match ← accept [.comma] with
    | none => pure acc.reverse
    | some _ =>
      if 255 ≤ acc.length then complain (← peek) complaint
      furtherInto complaint p turns ((← p) :: acc)

/-- Pieces with commas between them in front of a closing parenthesis, possibly none. -/
def commaList (complaint : String) (p : Rule α) : Rule (List α) := do
  if ← sees [.rightParen] then pure []
  else
    let first ← p
    furtherInto complaint p (← remaining) [first]

end Rule

end LoxLang
