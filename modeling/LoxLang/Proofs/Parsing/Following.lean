import LoxLang.Proofs.Parsing.Concatenation
import LoxLang.Proofs.Parsing.Deeds
import LoxLang.Proofs.Parsing.Room

/-!
# Following a rule

The reader by index does what a rule of the grammar does (`Sim`): where the rule leaves the end of
the tokens from an index on, the reader stands at that index, and what it has done on its way is a
`Path`. This module compares what the readers are made of: looking at a token and taking it
(`sim_peek`, `FollowsAt.accept`, `sim_expect`), and the loops (`followsAt_piecesInto`,
`followsAt_listInto`, `followsAt_chainInto`).
-/

namespace LoxLang.Grammar

open Rule (Consumes consumes_expect consumes_commaList)

/-- What a rule sees where a reader stands. -/
def Spot.cursor (ts : List Token) (s : Spot) : Cursor := ⟨ts.drop s.current, s.made⟩

/-- How a reader comes out in comparison with a rule. Attempts at declarations are begun so many
tokens behind the place where it started, at least. -/
inductive Follows {α : Type} (ts : List Token) (k : Nat) (s : Spot) :
    Result α → Outcome α → Prop where
  | read : Path ts (s.current + k) s s' news → Follows ts k s (.read a s') (.read a (s'.cursor ts))
  | gaveUp : Path ts (s.current + k) s s' news →
    Follows ts k s (.gaveUp s') (.gaveUp (s'.cursor ts))
  | tooDeep : Cut ts (s.current + k) s s' news → Follows ts k s (.tooDeep s') (.tooDeep s'.made)

/-- A reader at a place does what a rule does there. -/
abbrev FollowsAt (ts : List Token) (stop : Token) (k : Nat) (w : Walk α) (p : Rule α) (s : Spot) :
    Prop :=
  Follows ts k s (w (ts ++ [stop]) s) (p stop (s.cursor ts))

/-- A reader does what a rule does, wherever it starts. -/
def Sim (ts : List Token) (stop : Token) (k : Nat) (w : Walk α) (p : Rule α) : Prop :=
  ∀ s, s.current ≤ ts.length → FollowsAt ts stop k w p s

section

variable {ts : List Token} {stop : Token} {s mid : Spot}

theorem Follows.behind {r : Result α} {o : Outcome α} (h : Follows ts k' mid r o)
    (hp : Path ts (s.current + k) s mid news) (hk : s.current + k ≤ mid.current + k') :
    Follows ts k s r o := by
  have hmid := Nat.le_add_right mid.current k'
  cases h with
  | read hpath => exact .read (hpath.behind hp hk hmid)
  | gaveUp hpath => exact .gaveUp (hpath.behind hp hk hmid)
  | tooDeep hcut => exact .tooDeep (hcut.behind hp hk hmid)

theorem Follows.mono {r : Result α} {o : Outcome α} (h : Follows ts k s r o) (hk : k' ≤ k) :
    Follows ts k' s r o := by
  have hlo := Nat.add_le_add_left hk s.current
  cases h with
  | read hpath => exact .read (hpath.mono hlo)
  | gaveUp hpath => exact .gaveUp (hpath.mono hlo)
  | tooDeep hcut => exact .tooDeep (hcut.mono hlo)

variable {w : Walk α} {p : Rule α} {f : α → Walk β} {g : α → Rule β}

theorem Sim.mono (h : Sim ts stop k w p) (hk : k' ≤ k) : Sim ts stop k' w p :=
  fun s hs => (h s hs).mono hk

/-- What a reader does next, where it has read something. -/
theorem FollowsAt.bind (h : FollowsAt ts stop k w p s)
    (hf : ∀ a s', s'.current ≤ ts.length → p stop (s.cursor ts) = .read a (s'.cursor ts) →
      FollowsAt ts stop k (f a) (g a) s') :
    FollowsAt ts stop k (w >>= f) (p >>= g) s := by
  change Follows ts k s (Walk.bind w f (ts ++ [stop]) s) (Rule.bind p g stop (s.cursor ts))
  unfold Walk.bind Rule.bind
  change Follows ts k s (w (ts ++ [stop]) s) (p stop (s.cursor ts)) at h
  generalize w (ts ++ [stop]) s = r at h
  generalize p stop (s.cursor ts) = o at h hf
  cases h with
  | read hpath =>
    have hforward := hpath.forward
    exact (hf _ _ hpath.bound rfl).behind hpath (by omega)
  | gaveUp hpath => exact .gaveUp hpath
  | tooDeep hcut => exact .tooDeep hcut

theorem Sim.bind (hw : Sim ts stop k w p) (hf : ∀ a, Sim ts stop k (f a) (g a)) :
    Sim ts stop k (w >>= f) (p >>= g) :=
  fun s hs => (hw s hs).bind fun a s' hs' _ => hf a s' hs'

theorem sim_pure {a : α} : Sim ts stop k (pure a) (pure a) := fun _ hs => .read (.refl hs _)

theorem sim_tooDeep : Sim ts stop k (Walk.tooDeep : Walk α) Rule.tooDeep :=
  fun _ hs => .tooDeep (Path.refl hs _).toCut

theorem sim_complain : Sim ts stop k (Walk.complain token message)
    (Rule.complain token message) := fun _ hs => .read (path_report hs _ _)

end

/-! ## Tokens -/

section

variable {ts : List Token} {stop : Token} (hts : ∀ t ∈ ts, t.kind ≠ .eof) (hstop : stop.kind = .eof)
  {s : Spot} (hs : s.current ≤ ts.length)

include hs in
theorem peek_eq :
    Walk.peek (ts ++ [stop]) s = .read ((ts.drop s.current).headD stop) s := by
  unfold Walk.peek Walk.lookUp
  rcases Nat.lt_or_eq_of_le hs with hlt | heq
  · rw [List.getElem?_append_left hlt, List.getElem?_eq_getElem hlt, List.drop_eq_getElem_cons hlt]
    rfl
  · rw [heq, List.drop_length, List.getElem?_concat_length]
    rfl

theorem sim_peek : Sim ts stop k Walk.peek Rule.peek := fun s hs => by
  unfold FollowsAt
  rw [peek_eq hs]
  exact .read (.refl hs _)

include hts hstop

include hs in
theorem atEnd_eq :
    Walk.atEnd (ts ++ [stop]) s = .read (ts.drop s.current).isEmpty s := by
  change Walk.bind Walk.peek _ _ _ = _
  unfold Walk.bind
  rw [peek_eq hs]
  cases hdrop : ts.drop s.current with
  | nil => exact congrArg (Result.read · s) (decide_eq_true hstop)
  | cons t rest =>
    have hmem : t ∈ ts := List.mem_of_mem_drop (hdrop ▸ List.mem_cons_self)
    exact congrArg (Result.read · s) (decide_eq_false (hts t hmem))

theorem sim_atEnd : Sim ts stop k Walk.atEnd Rule.atEnd := fun s hs => by
  unfold FollowsAt
  rw [atEnd_eq hts hstop hs]
  exact .read (.refl hs _)

include hs in
theorem check_eq (kind : TokenKind) : Walk.check kind (ts ++ [stop]) s =
    .read ((ts.drop s.current).head?.any (·.kind = kind)) s := by
  change Walk.bind Walk.atEnd _ _ _ = _
  unfold Walk.bind
  rw [atEnd_eq hts hstop hs]
  cases hdrop : ts.drop s.current with
  | nil => rfl
  | cons t rest =>
    change Walk.bind Walk.peek _ _ _ = _
    unfold Walk.bind
    rw [peek_eq hs, hdrop]
    rfl

theorem sim_check : Sim ts stop k (Walk.check kind) (Rule.sees [kind]) := fun s hs => by
  unfold FollowsAt Rule.sees Spot.cursor
  rw [check_eq hts hstop hs]
  cases hdrop : ts.drop s.current with
  | nil =>
    have := Follows.read (a := false) (Path.refl hs (s.current + k))
    rwa [Spot.cursor, hdrop] at this
  | cons t rest =>
    have := Follows.read (a := [kind].contains t.kind) (Path.refl hs (s.current + k))
    rw [Spot.cursor, hdrop] at this
    simpa [List.contains_cons] using this

theorem advance_eq (hlt : s.current < ts.length) :
    Walk.advance (ts ++ [stop]) s = .read ts[s.current] s.past := by
  change Walk.bind Walk.atEnd _ _ _ = _
  unfold Walk.bind
  rw [atEnd_eq hts hstop (Nat.le_of_lt hlt), List.drop_eq_getElem_cons hlt]
  change Walk.lookUp s.current (ts ++ [stop]) s.past = _
  unfold Walk.lookUp
  rw [List.getElem?_append_left hlt, List.getElem?_eq_getElem hlt]

include hs in
theorem accept_eq_of_end (hend : ts.length ≤ s.current) (kinds : List TokenKind) :
    Walk.accept kinds (ts ++ [stop]) s = .read none s := by
  induction kinds with
  | nil => rfl
  | cons kind kinds ih =>
    change Walk.bind (Walk.check kind) _ _ _ = _
    unfold Walk.bind
    rw [check_eq hts hstop hs, List.drop_eq_nil_of_le hend]
    exact ih

theorem accept_eq (hlt : s.current < ts.length) (kinds : List TokenKind) :
    Walk.accept kinds (ts ++ [stop]) s =
      if kinds.contains ts[s.current].kind then .read (some ts[s.current]) s.past
      else .read none s := by
  induction kinds with
  | nil => rfl
  | cons kind kinds ih =>
    change Walk.bind (Walk.check kind) _ _ _ = _
    unfold Walk.bind
    rw [check_eq hts hstop (Nat.le_of_lt hlt), List.drop_eq_getElem_cons hlt, List.contains_cons]
    by_cases hk : ts[s.current].kind = kind
    · simp only [List.head?_cons, Option.any_some, hk, decide_true, ↓reduceIte, beq_self_eq_true,
        Bool.true_or]
      change Walk.bind Walk.advance _ _ _ = _
      unfold Walk.bind
      rw [advance_eq hts hstop hlt]
      rfl
    · simp only [List.head?_cons, Option.any_some, hk, decide_false, Bool.false_eq_true,
        ↓reduceIte, beq_eq_false_iff_ne.2 hk, Bool.false_or]
      exact ih

/-- A reader that goes past the next token if it has one of some kinds. -/
theorem FollowsAt.accept {f : Option Token → Walk β} {g : Option Token → Rule β}
    (hs : s.current ≤ ts.length) (hnone : FollowsAt ts stop k (f none) (g none) s)
    (hsome : ∀ t, s.current < ts.length →
      FollowsAt ts stop (k - 1) (f (some t)) (g (some t)) s.past) :
    FollowsAt ts stop k (Walk.accept kinds >>= f) (Rule.accept kinds >>= g) s := by
  change Follows ts k s (Walk.bind (Walk.accept kinds) f _ s)
    (Rule.bind (Rule.accept kinds) g stop (s.cursor ts))
  unfold Walk.bind Rule.bind Rule.accept
  rcases Nat.lt_or_eq_of_le hs with hlt | heq
  · have hrest : (s.cursor ts).rest = ts[s.current] :: (s.past.cursor ts).rest :=
      List.drop_eq_getElem_cons hlt
    rw [accept_eq hts hstop hlt, hrest]
    by_cases hk : kinds.contains ts[s.current].kind
    · simp only [hk, ↓reduceIte]
      exact (hsome _ hlt).behind (path_past hlt _) (by simp only [Spot.past]; omega)
    · simp only [hk, Bool.false_eq_true, ↓reduceIte]
      exact hnone
  · have hrest : (s.cursor ts).rest = [] := List.drop_eq_nil_of_le (Nat.le_of_eq heq.symm)
    rw [accept_eq_of_end hts hstop hs (Nat.le_of_eq heq.symm), hrest]
    exact hnone

theorem Sim.accept {f : Option Token → Walk β} {g : Option Token → Rule β}
    (hnone : Sim ts stop k (f none) (g none))
    (hsome : ∀ t, Sim ts stop (k - 1) (f (some t)) (g (some t))) :
    Sim ts stop k (Walk.accept kinds >>= f) (Rule.accept kinds >>= g) := fun s hs =>
  .accept hts hstop hs (hnone s hs) fun t hlt => hsome t s.past hlt

omit hts hstop in
theorem sim_reject : Sim ts stop k (Walk.reject message : Walk α) (Rule.reject message) := by
  intro s hs
  change Follows ts k s (Walk.bind Walk.peek _ _ s) _
  unfold Walk.bind
  rw [peek_eq hs]
  exact .gaveUp (path_report hs _ _)

theorem sim_expect : Sim ts stop k (Walk.expect kind message) (Rule.expect kind message) := by
  intro s hs
  change Follows ts k s (Walk.bind (Walk.check kind) _ _ s)
    (Rule.bind (Rule.accept [kind]) _ stop (s.cursor ts))
  unfold Walk.bind Rule.bind Rule.accept
  rw [check_eq hts hstop hs]
  rcases Nat.lt_or_eq_of_le hs with hlt | heq
  · have hrest : (s.cursor ts).rest = ts[s.current] :: (s.past.cursor ts).rest :=
      List.drop_eq_getElem_cons hlt
    rw [List.drop_eq_getElem_cons hlt, hrest]
    by_cases hk : ts[s.current].kind = kind
    · simp only [List.head?_cons, Option.any_some, hk, decide_true, ↓reduceIte,
        List.contains_cons, beq_self_eq_true, Bool.true_or, advance_eq hts hstop hlt]
      exact .read (path_past hlt _)
    · simp only [List.head?_cons, Option.any_some, hk, decide_false, Bool.false_eq_true,
        ↓reduceIte, List.contains_cons, beq_eq_false_iff_ne.2 hk, List.contains_nil,
        Bool.false_or]
      exact sim_reject s hs
  · have hrest : (s.cursor ts).rest = [] := List.drop_eq_nil_of_le (Nat.le_of_eq heq.symm)
    rw [List.drop_eq_nil_of_le (Nat.le_of_eq heq.symm), hrest]
    exact sim_reject s hs

end

/-! ## Loops -/

section

variable {ts : List Token} {stop : Token} (hts : ∀ t ∈ ts, t.kind ≠ .eof) (hstop : stop.kind = .eof)
  {s : Spot} (hs : s.current ≤ ts.length)

/-- Where a rule has read a piece that has so many tokens. -/
theorem current_of_consumes {o : Outcome α} {s' : Spot} (hs : s.current ≤ ts.length)
    (hc : o.Consumes n (s.cursor ts)) (ho : o = .read a (s'.cursor ts))
    (hs' : s'.current ≤ ts.length) : s.current + n ≤ s'.current := by
  subst ho
  have hlen := hc.2.1
  simp only [Spot.cursor, List.length_drop] at hlen
  omega

/-- The turns of a loop suffice. -/
theorem turns_lt (s : Spot) (stop : Token) : ts.length - s.current < (ts ++ [stop]).length := by
  rw [List.length_append]
  exact Nat.lt_succ_of_le (Nat.sub_le _ _)

/-- A turn of a loop over pieces. -/
theorem piecesInto_turn {p : Rule α} : Rule.piecesInto kinds p (turn :: turns) acc stop c =
    (if c.rest.head?.all fun t => kinds.contains t.kind then pure acc.reverse
      else p >>= fun a => Rule.piecesInto kinds p turns (a :: acc)) stop c := by
  obtain ⟨_ | ⟨t, rest⟩, made⟩ := c <;> rfl

/-- A reader of pieces that have a token at least, each in front of the end. -/
theorem followsAt_piecesInto {reached : Walk Bool} {w : Walk α} {p : Rule α}
    (hreached : ∀ s, s.current ≤ ts.length → reached (ts ++ [stop]) s =
      .read ((s.cursor ts).rest.head?.all fun t => kinds.contains t.kind) s)
    (hp : ∀ s, s.current < ts.length → FollowsAt ts stop 0 w p s)
    (hc : ∀ c, (p stop c).Consumes (min 1 c.rest.length) c)
    (hs : s.current ≤ ts.length) (hn : ts.length - s.current < n)
    (hturns : ts.length - s.current ≤ turns.length) :
    FollowsAt ts stop 0 (Walk.piecesInto reached w n acc)
      (Rule.piecesInto kinds p turns acc) s := by
  induction n generalizing turns acc s with
  | zero => exact absurd hn (Nat.not_lt_zero _)
  | succ n ih =>
    have hlen : (s.cursor ts).rest.length = ts.length - s.current := List.length_drop
    change Follows ts 0 s (Walk.bind reached _ _ s) _
    unfold Walk.bind
    rw [hreached s hs]
    cases turns with
    | nil =>
      have hnil : (s.cursor ts).rest = [] := List.eq_nil_of_length_eq_zero (by simp_all)
      rw [hnil]
      exact .read (.refl hs _)
    | cons turn turns =>
      rw [piecesInto_turn]
      by_cases hmet : (s.cursor ts).rest.head?.all fun t => kinds.contains t.kind
      · simp only [hmet, ↓reduceIte]
        exact .read (.refl hs _)
      · simp only [hmet, Bool.false_eq_true, ↓reduceIte]
        have hlt : s.current < ts.length := by
          refine Nat.lt_of_le_of_ne hs fun heq => hmet ?_
          rw [List.eq_nil_of_length_eq_zero (by omega : (s.cursor ts).rest.length = 0)]
          rfl
        refine (hp s hlt).bind fun a s' hs' hread => ?_
        have hshort := current_of_consumes hs (hc (s.cursor ts)) hread hs'
        simp only [List.length_cons] at hturns
        exact ih hs' (by omega) (by omega)

include hts hstop

theorem closed_eq (hs : s.current ≤ ts.length) : Walk.closed (ts ++ [stop]) s =
    .read ((s.cursor ts).rest.head?.all fun t => [TokenKind.rightBrace].contains t.kind) s := by
  change Walk.bind (Walk.check .rightBrace) _ _ s = _
  unfold Walk.bind Spot.cursor
  rw [check_eq hts hstop hs]
  by_cases hbrace : (ts.drop s.current).head?.any (·.kind = .rightBrace)
  · rw [hbrace]
    refine congrArg (Result.read · s) ?_
    cases hdrop : ts.drop s.current <;> simp_all
  · simp only [hbrace, Bool.false_eq_true, ↓reduceIte]
    rw [atEnd_eq hts hstop hs]
    refine congrArg (Result.read · s) ?_
    cases hdrop : ts.drop s.current <;> simp_all

/-- A reader of pieces up to a closing brace or the end. -/
theorem sim_piecesUntil_closed {w : Walk α} {p : Rule α}
    (hp : ∀ s, s.current < ts.length → FollowsAt ts stop 0 w p s)
    (hc : ∀ c, (p stop c).Consumes (min 1 c.rest.length) c) :
    Sim ts stop 0 (Walk.piecesUntil Walk.closed w) (Rule.piecesUntil [.rightBrace] p) :=
  fun _ hs => followsAt_piecesInto (fun _ => closed_eq hts hstop) hp hc hs
    (turns_lt _ stop) (Nat.le_of_eq List.length_drop.symm)

/-- A reader of pieces up to the end. -/
theorem sim_piecesUntil_atEnd {w : Walk α} {p : Rule α}
    (hp : ∀ s, s.current < ts.length → FollowsAt ts stop 0 w p s)
    (hc : ∀ c, (p stop c).Consumes (min 1 c.rest.length) c) :
    Sim ts stop 0 (Walk.piecesUntil Walk.atEnd w) (Rule.piecesUntil [] p) :=
  fun _ hs => followsAt_piecesInto
    (fun s hs => by
      rw [atEnd_eq hts hstop hs, Spot.cursor]
      cases ts.drop s.current <;> rfl)
    hp hc hs (turns_lt _ stop) (Nat.le_of_eq List.length_drop.symm)

/-- A loop that goes on behind a token of some kinds has none at the end of the tokens. -/
theorem followsAt_accept_of_end {f : Option Token → Walk β} {p : Rule β}
    (hs : s.current ≤ ts.length) (hend : ts.length ≤ s.current)
    (hnone : FollowsAt ts stop k (f none) p s) :
    FollowsAt ts stop k (Walk.accept kinds >>= f) p s := by
  change Follows ts k s (Walk.bind (Walk.accept kinds) f _ s) _
  unfold Walk.bind
  rw [accept_eq_of_end hts hstop hs hend]
  exact hnone

/-- A reader that has read a piece of a list. -/
theorem followsAt_listInto {w : Walk α} {p : Rule α} (hp : ∀ k, Sim ts stop k w p)
    (hc : Rule.Consumes 0 p)
    (hs : s.current ≤ ts.length) (hn : ts.length - s.current < n)
    (hturns : ts.length - s.current ≤ turns.length) :
    FollowsAt ts stop k
      (Walk.accept [.comma] >>= fun t => match t with
        | none => pure acc.reverse
        | some _ => Walk.listInto complaint w n acc)
      (Rule.furtherInto complaint p turns acc) s := by
  induction n generalizing turns acc s k with
  | zero => exact absurd hn (Nat.not_lt_zero _)
  | succ n ih =>
    cases turns with
    | nil =>
      exact followsAt_accept_of_end hts hstop hs (Nat.le_of_sub_eq_zero (Nat.le_zero.1 hturns))
        (.read (.refl hs _))
    | cons turn turns =>
      refine .accept hts hstop hs (.read (.refl hs _)) fun t hlt => ?_
      have hnext (s' : Spot) (hs' : s'.current ≤ ts.length) (hle : s.current + 1 ≤ s'.current) :
          FollowsAt ts stop (k - 1)
            (w >>= fun a => Walk.accept [.comma] >>= fun t => match t with
              | none => pure (a :: acc).reverse
              | some _ => Walk.listInto complaint w n (a :: acc))
            (p >>= fun a => Rule.furtherInto complaint p turns (a :: acc)) s' := by
        refine (hp _ s' hs').bind fun a s'' hs'' hread => ?_
        have hforward := current_of_consumes hs' (hc stop _) hread hs''
        simp only [List.length_cons] at hturns
        exact ih hs'' (by omega) (by omega)
      by_cases hmany : 255 ≤ acc.length
      · simp only [Walk.listInto, hmany, ↓reduceIte]
        refine (sim_peek s.past hlt).bind fun front s' hs' hread => ?_
        refine (sim_complain s' hs').bind fun _ s'' hs'' hread' => ?_
        have hpeek := current_of_consumes (s := s.past) hlt (Rule.consumes_peek stop _) hread hs'
        have hcomplain := current_of_consumes hs' (Rule.consumes_complain stop _) hread' hs''
        exact hnext s'' hs'' (Nat.le_trans hpeek hcomplain)
      · simp only [Walk.listInto, hmany, ↓reduceIte]
        exact hnext s.past hlt (Nat.le_refl _)

theorem sim_commaList {w : Walk α} {p : Rule α} (hp : ∀ k, Sim ts stop k w p)
    (hc : Rule.Consumes 1 p) :
    Sim ts stop k (Walk.commaList complaint w) (Rule.commaList complaint p) := by
  refine .bind (sim_check hts hstop) fun paren => ?_
  cases paren with
  | true => exact sim_pure
  | false =>
    intro s hs
    change Follows ts k s (Walk.listInto complaint w (ts ++ [stop]).length [] (ts ++ [stop]) s) _
    rw [List.length_append]
    change FollowsAt ts stop k (w >>= fun a => Walk.accept [.comma] >>= fun t => match t with
        | none => pure [a].reverse
        | some _ => Walk.listInto complaint w ts.length [a])
      (p >>= fun a => Rule.remaining >>= fun turns => Rule.furtherInto complaint p turns [a]) s
    refine (hp k s hs).bind fun a s' hs' hread => ?_
    have hforward := current_of_consumes hs (hc stop _) hread hs'
    exact followsAt_listInto hts hstop hp (hc.mono (Nat.zero_le 1)) hs' (by omega)
      (Nat.le_of_eq List.length_drop.symm)

/-- A reader that has read an operand. -/
theorem followsAt_chainInto {w : Walk Expr} {p : Rule Expr} (hp : ∀ k, Sim ts stop k w p)
    (hc : Rule.Consumes 0 p) (hs : s.current ≤ ts.length) (hn : ts.length - s.current < n)
    (hturns : ts.length - s.current ≤ turns.length) :
    FollowsAt ts stop k (Walk.chainInto kinds w n left) (chainInto kinds p turns left) s := by
  induction n generalizing turns left s k with
  | zero => exact absurd hn (Nat.not_lt_zero _)
  | succ n ih =>
    cases turns with
    | nil =>
      exact followsAt_accept_of_end hts hstop hs (Nat.le_of_sub_eq_zero (Nat.le_zero.1 hturns))
        (.read (.refl hs _))
    | cons turn turns =>
      refine .accept hts hstop hs (.read (.refl hs _)) fun operator hlt => ?_
      refine (hp _ s.past hlt).bind fun right s' hs' hread => ?_
      have hforward := current_of_consumes (s := s.past) hlt (hc stop _) hread hs'
      simp only [List.length_cons, Spot.past] at hturns hforward
      exact ih hs' (by omega) (by omega)

end

end LoxLang.Grammar
