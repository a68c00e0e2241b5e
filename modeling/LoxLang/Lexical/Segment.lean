import LoxLang.Token
import LoxLang.Number

/-!
# Segments of a source

A segment is the longest piece at its place that the lexical grammar knows (`next`): a lexeme, a
blank, a comment up to its newline, a character that begins nothing, or a string that is never
closed. The segments of a source put together are the source (`flatten_segments`).
-/

namespace LoxLang

inductive Segment where
  /-- A lexeme with its kind and the constant it denotes. -/
  | lexeme (kind : TokenKind) (text : List Char) (literal : Option Constant)
  /-- A space, tab, carriage return or newline. -/
  | blank (c : Char)
  /-- Two slashes and the rest of the line without its newline. -/
  | comment (text : List Char)
  /-- A character with which nothing begins. -/
  | stray (c : Char)
  /-- A quote and all that follows when no second quote does. -/
  | unclosed (text : List Char)
deriving DecidableEq

namespace Segment

/-- The characters of a segment. -/
def text : Segment → List Char
  | lexeme _ text _ => text
  | blank c => [c]
  | comment text => text
  | stray c => [c]
  | unclosed text => text

/-- ASCII letters and the underscore. -/
def isAlpha (c : Char) : Bool := ('a' ≤ c && c ≤ 'z') || ('A' ≤ c && c ≤ 'Z') || c == '_'

def isWordChar (c : Char) : Bool := isAlpha c || Number.isDigit c

/-- A lexeme that denotes no constant. -/
def mark (kind : TokenKind) (text : List Char) : Segment := lexeme kind text none

/-- The kind of a character that is a lexeme whatever follows. -/
def single? : Char → Option TokenKind
  | '(' => some .leftParen
  | ')' => some .rightParen
  | '{' => some .leftBrace
  | '}' => some .rightBrace
  | ',' => some .comma
  | '.' => some .dot
  | '-' => some .minus
  | '+' => some .plus
  | ';' => some .semicolon
  | '*' => some .star
  | _ => none

/-- The kinds of a character alone and with an equals sign behind it. -/
def double? : Char → Option (TokenKind × TokenKind)
  | '!' => some (.bang, .bangEqual)
  | '=' => some (.equal, .equalEqual)
  | '<' => some (.less, .lessEqual)
  | '>' => some (.greater, .greaterEqual)
  | _ => none

/-- The fraction of a numeral, if a point with a digit behind it follows. -/
def fraction : List Char → List Char
  | '.' :: d :: rest => if Number.isDigit d then '.' :: d :: rest.takeWhile Number.isDigit else []
  | _ => []

/-- The numeral that begins a text. -/
def numeral (cs : List Char) : List Char :=
  cs.takeWhile Number.isDigit ++ fraction (cs.dropWhile Number.isDigit)

/-- The segment that begins with `c` when `rest` follows. -/
def next (c : Char) (rest : List Char) : Segment :=
  match single? c with
  | some kind => mark kind [c]
  | none =>
  match double? c with
  | some (alone, withEqual) =>
    if rest.head? = some '=' then mark withEqual [c, '='] else mark alone [c]
  | none =>
  if c = '/' then
    if rest.head? = some '/' then comment (c :: rest.takeWhile (· != '\n')) else mark .slash [c]
  else if c = ' ' || c = '\r' || c = '\t' || c = '\n' then blank c
  else if c = '"' then
    let body := rest.takeWhile (· != '"')
    if body.length < rest.length then
      lexeme .string (c :: body ++ ['"']) (some (.string (String.ofList body)))
    else unclosed (c :: rest)
  else if Number.isDigit c then
    let text := numeral (c :: rest)
    lexeme .number text (some (.number (Number.ofNumeral text)))
  else if isAlpha c then
    let text := c :: rest.takeWhile isWordChar
    mark (.ofWord (String.ofList text)) text
  else stray c

end Segment

/-- Takes segments off a text, which needs at most `fuel` steps, the last one first. -/
def Segment.collect : Nat → List Char → List Segment → List Segment
  | 0, _, acc | _ + 1, [], acc => acc
  | fuel + 1, c :: rest, acc =>
    let s := next c rest
    collect fuel ((c :: rest).drop s.text.length) (s :: acc)

/-- The segments of a source, in order. A segment has at least one character, so there are no more
of them than characters. -/
def segments (source : List Char) : List Segment :=
  (Segment.collect source.length source []).reverse

namespace Segment

theorem fraction_isPrefix (cs : List Char) : fraction cs <+: cs := by
  unfold fraction
  split
  · split
    · exact List.prefix_cons_inj _ |>.2 <| List.prefix_cons_inj _ |>.2 <|
        List.takeWhile_prefix _
    · exact List.nil_prefix
  · exact List.nil_prefix

theorem numeral_isPrefix (cs : List Char) : numeral cs <+: cs := by
  obtain ⟨tail, h⟩ := fraction_isPrefix (cs.dropWhile Number.isDigit)
  exact ⟨tail, by rw [numeral, List.append_assoc, h, List.takeWhile_append_dropWhile]⟩

/-- What a segment consists of stands at the front of the text it was taken from. -/
theorem text_next_isPrefix (c : Char) (rest : List Char) : (next c rest).text <+: c :: rest := by
  have one : [c] <+: c :: rest := ⟨rest, rfl⟩
  have pair (d : Char) (h : rest.head? = some d) : [c, d] <+: c :: rest := by
    cases rest with
    | nil => simp at h
    | cons e tail => simp at h; exact ⟨tail, by simp [h]⟩
  have run (p : Char → Bool) : c :: rest.takeWhile p <+: c :: rest :=
    List.prefix_cons_inj _ |>.2 (List.takeWhile_prefix _)
  unfold next
  split
  · exact one
  split
  · split
    · exact pair _ (by assumption)
    · exact one
  split
  · split
    · exact run _
    · exact one
  split
  · exact one
  split
  · dsimp only
    split
    · rename_i h
      have : rest.takeWhile (· != '"') ++ rest.dropWhile (· != '"') = rest :=
        List.takeWhile_append_dropWhile
      cases hd : rest.dropWhile (· != '"') with
      | nil =>
        rw [hd, List.append_nil] at this
        rw [this] at h
        exact absurd h (Nat.lt_irrefl _)
      | cons d tail =>
        have hq : d = '"' := by
          have := List.head?_dropWhile_not (p := (· != '"')) (l := rest)
          rw [hd] at this
          simpa using this
        rw [hd, hq] at this
        exact ⟨tail, by simp [text, this]⟩
    · exact List.prefix_rfl
  split
  · exact numeral_isPrefix _
  split
  · exact run _
  · exact one

theorem text_next_ne_nil (c : Char) (rest : List Char) : (next c rest).text ≠ [] := by
  unfold next
  split
  · simp [mark, text]
  split
  · split <;> simp [mark, text]
  split
  · split <;> simp [mark, text]
  split
  · simp [text]
  split
  · dsimp only; split <;> simp [text]
  split
  · rename_i h; simp [text, numeral, h]
  split <;> simp [mark, text]

theorem collect_append (fuel : Nat) (cs : List Char) (acc : List Segment) :
    collect fuel cs acc = collect fuel cs [] ++ acc := by
  induction fuel generalizing cs acc with
  | zero => rfl
  | succ n ih =>
    cases cs with
    | nil => rfl
    | cons c rest => simp only [collect]; rw [ih, ih _ [_]]; simp

theorem collect_add (fuel extra : Nat) (cs : List Char) (h : cs.length ≤ fuel) :
    collect (fuel + extra) cs [] = collect fuel cs [] := by
  induction fuel generalizing cs with
  | zero =>
    obtain rfl : cs = [] := List.eq_nil_of_length_eq_zero (Nat.le_zero.1 h)
    cases extra <;> rfl
  | succ n ih =>
    rw [Nat.succ_add]
    cases cs with
    | nil => rfl
    | cons c rest =>
      simp only [collect]
      rw [collect_append, collect_append n, ih]
      have := List.length_pos_iff.2 (text_next_ne_nil c rest)
      simp only [List.length_drop, List.length_cons] at h ⊢
      omega

end Segment

@[simp] theorem segments_nil : segments [] = [] := rfl

theorem segments_cons (c : Char) (rest : List Char) :
    segments (c :: rest) =
      Segment.next c rest :: segments ((c :: rest).drop (Segment.next c rest).text.length) := by
  have := List.length_pos_iff.2 (Segment.text_next_ne_nil c rest)
  simp only [segments, List.length_cons, Segment.collect]
  rw [Segment.collect_append, List.reverse_append]
  obtain ⟨k, hk⟩ : ∃ k, rest.length =
      ((c :: rest).drop (Segment.next c rest).text.length).length + k :=
    ⟨(Segment.next c rest).text.length - 1, by
      have := (Segment.text_next_isPrefix c rest).length_le
      simp only [List.length_drop, List.length_cons] at *
      omega⟩
  rw [hk, Segment.collect_add _ _ _ (Nat.le_refl _)]
  rfl

/-- Nothing of a source is lost and nothing is read twice. -/
theorem flatten_segments (source : List Char) :
    ((segments source).map Segment.text).flatten = source := by
  induction h : source.length using Nat.strongRecOn generalizing source with
  | ind n ih =>
    cases source with
    | nil => rfl
    | cons c rest =>
      have hpos := List.length_pos_iff.2 (Segment.text_next_ne_nil c rest)
      rw [segments_cons, List.map_cons, List.flatten_cons, ih _ _ _ rfl]
      · obtain ⟨tail, ht⟩ := Segment.text_next_isPrefix c rest
        simp [← ht]
      · subst h
        simp only [List.length_drop, List.length_cons]
        omega

end LoxLang
