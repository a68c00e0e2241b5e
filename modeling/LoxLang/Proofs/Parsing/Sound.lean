import LoxLang.Grammar.Program
import LoxLang.Proofs.MaximalMunch
import LoxLang.Proofs.Parsing.Derivation

/-!
# What is read is derived

What is read without a report is derived by the grammar (`silent_reading_derives`). Each rule is
judged by what it reads (`Rule.Sound`): either it makes a report, or the tokens it takes off the
front derive the tree it yields. A rule may also tell what it has seen at the front of the tokens
that it leaves.
-/

namespace LoxLang

/-! ## Rules -/

/-- The second list of reports has the first one and reports on the text in front of it. -/
def Adds (made later : List Report) : Prop :=
  ∃ rs, later = rs ++ made ∧ ∀ r ∈ rs, r.kind = .static

namespace Adds

theorem refl (made : List Report) : Adds made made := ⟨[], rfl, nofun⟩

theorem trans (h : Adds made later) (h' : Adds later last) : Adds made last := by
  obtain ⟨rs, rfl, hrs⟩ := h
  obtain ⟨qs, rfl, hqs⟩ := h'
  exact ⟨qs ++ rs, (List.append_assoc ..).symm, List.forall_mem_append.2 ⟨hqs, hrs⟩⟩

theorem one : Adds made (.atToken token message :: made) :=
  ⟨[_], rfl, by simp [Report.atToken]⟩

/-- Reports that are there at the end were there in between. -/
theorem eq_of_last (h : Adds made later) (h' : Adds later made) : later = made := by
  obtain ⟨rs, rfl, -⟩ := h
  obtain ⟨qs, hqs, -⟩ := h'
  have hlen := congrArg List.length hqs
  simp only [List.length_append] at hlen
  rw [List.eq_nil_of_length_eq_zero (l := rs) (by omega), List.nil_append]

end Adds

/-- What was read when no report was made: a piece whose tokens, and the tokens behind them, satisfy
`P`. A rule that gives up makes a report. -/
def Outcome.Sound (P : α → List Token → List Token → Prop) (c : Cursor) : Outcome α → Prop
  | .read a next => Adds c.made next.made ∧
    (next.made = c.made → ∃ ts, c.rest = ts ++ next.rest ∧ P a ts next.rest)
  | .gaveUp next => Adds c.made next.made ∧ next.made ≠ c.made
  | .tooDeep _ => True

/-- None of the kinds stands at the front. -/
def Clear (kinds : List TokenKind) (ts : List Token) : Prop := ∀ t ∈ ts.head?, t.kind ∉ kinds

namespace Rule
open Grammar

variable {α β : Type}

def Sound (P : α → List Token → List Token → Prop) (p : Rule α) : Prop :=
  ∀ stop c, (p stop c).Sound P c

theorem Sound.mono {p : Rule α} {P P' : α → List Token → List Token → Prop} (hp : Sound P p)
    (h : ∀ a ts rest, P a ts rest → P' a ts rest) : Sound P' p := by
  intro stop c
  have := hp stop c
  cases hr : p stop c with
  | read a next =>
    rw [hr] at this
    refine ⟨this.1, fun hmade => ?_⟩
    obtain ⟨ts, hrest, hP⟩ := this.2 hmade
    exact ⟨ts, hrest, h a ts _ hP⟩
  | gaveUp next => rw [hr] at this; exact this
  | tooDeep => trivial

section
variable {p : Rule α} {P : α → List Token → List Token → Prop} {f : α → Rule β}
  {Q : β → List Token → List Token → Prop}

theorem sound_pure {a : α} (h : ∀ rest, P a [] rest) : Sound P (pure a) := fun _ c =>
  ⟨.refl _, fun _ => ⟨[], rfl, h c.rest⟩⟩

/-- One rule after another. What the first rule has read is known where the second one ends, and so
are the tokens `mid` between the two. -/
theorem Sound.bind (hp : Sound P p)
    (hf : ∀ a us mid, Sound (fun b vs rest => P a us mid → mid = vs ++ rest → Q b (us ++ vs) rest)
      (f a)) : Sound Q (p >>= f) := by
  intro stop c
  have hfirst := hp stop c
  change (Rule.bind p f stop c).Sound Q c
  unfold Rule.bind
  cases hr : p stop c with
  | read a mid =>
    rw [hr] at hfirst
    obtain ⟨hadds, hread⟩ := hfirst
    have hsecond us := hf a us mid.rest stop mid
    dsimp only
    cases hr : f a stop mid with
    | read b next =>
      simp only [hr, Outcome.Sound] at hsecond
      have hadds' := (hsecond []).1
      refine ⟨hadds.trans hadds', fun hmade => ?_⟩
      have hmid : mid.made = c.made := hadds.eq_of_last (hmade ▸ hadds')
      obtain ⟨us, hus, hP⟩ := hread hmid
      obtain ⟨vs, hvs, hQ⟩ := (hsecond us).2 (hmade.trans hmid.symm)
      exact ⟨us ++ vs, by rw [hus, hvs, List.append_assoc], hQ hP hvs⟩
    | gaveUp next =>
      simp only [hr, Outcome.Sound] at hsecond
      obtain ⟨hadds', hne⟩ := hsecond []
      refine ⟨hadds.trans hadds', fun hmade => hne ?_⟩
      rw [hmade, hadds.eq_of_last (hmade ▸ hadds')]
    | tooDeep => trivial
  | gaveUp next => rw [hr] at hfirst; exact hfirst
  | tooDeep => trivial

/-- One rule after another, when the first one says nothing about the tokens behind it. -/
theorem Sound.next {P : α → List Token → Prop} (hp : Sound (fun a us _ => P a us) p)
    (hf : ∀ a us, Sound (fun b vs rest => P a us → Q b (us ++ vs) rest) (f a)) :
    Sound Q (p >>= f) :=
  hp.bind fun a us _ => (hf a us).mono fun _ _ _ h hP _ => h hP

/-- A rule with its tree put into another one. -/
theorem Sound.map {g : α → β} (hp : Sound (fun a ts rest => Q (g a) ts rest) p) :
    Sound Q (p >>= fun a => pure (g a)) :=
  hp.bind fun a us mid => sound_pure fun rest h hmid => by
    obtain rfl : mid = rest := hmid
    rwa [List.append_nil]

theorem sound_tooDeep : Sound P tooDeep := fun _ _ => trivial

theorem sound_reject : Sound P (reject message) := fun _ _ => ⟨.one, by simp⟩

theorem sound_complain : Sound (fun _ _ _ => False) (complain token message) := fun _ _ =>
  ⟨.one, fun h => absurd h (by simp)⟩

/-- After a complaint nothing has to be shown. -/
theorem Sound.complained {R Q : β → List Token → List Token → Prop} {q : Rule β} (hq : Sound R q) :
    Sound Q (complain token message >>= fun _ => q) :=
  sound_complain.bind fun _ _ _ => hq.mono fun _ _ _ _ => False.elim

theorem Sound.peek {f : Token → Rule β} (hf : ∀ t, Sound Q (f t)) : Sound Q (peek >>= f) :=
  Sound.bind (P := fun _ us _ => us = []) (fun _ c => ⟨.refl _, fun _ => ⟨[], rfl, rfl⟩⟩)
    fun t us _ => (hf t).mono fun _ _ _ h hus _ => by rwa [hus]

theorem Sound.remaining {f : List Token → Rule β}
    (hf : ∀ ts, Sound (fun b vs rest => ts = vs ++ rest → Q b vs rest) (f ts)) :
    Sound Q (remaining >>= f) :=
  Sound.bind (P := fun ts us mid => us = [] ∧ ts = mid)
    (fun _ _ => ⟨.refl _, fun _ => ⟨[], rfl, rfl, rfl⟩⟩)
    fun ts us mid => (hf ts).mono fun _ _ _ h hus hmid => by
      obtain ⟨rfl, rfl⟩ := hus
      exact h hmid

theorem Sound.atEnd {f : Bool → Rule β}
    (hf : ∀ r, Sound (fun b vs rest => (r = true → vs ++ rest = []) → Q b vs rest) (f r)) :
    Sound Q (atEnd >>= f) :=
  Sound.bind (P := fun r us mid => us = [] ∧ (r = true → mid = []))
    (fun _ c => ⟨.refl _, fun _ => ⟨[], rfl, rfl, by simp⟩⟩)
    fun r us mid => (hf r).mono fun _ _ _ h hus hmid => by
      obtain ⟨rfl, hr⟩ := hus
      exact h (hmid ▸ hr)

theorem Sound.sees {f : Bool → Rule β}
    (hf : ∀ r, Sound (fun b vs rest => (r = true → Begins kinds (vs ++ rest)) → Q b vs rest)
      (f r)) : Sound Q (sees kinds >>= f) := by
  refine Sound.bind (P := fun r us mid => us = [] ∧ (r = true → Begins kinds mid)) ?_
    fun r us mid => (hf r).mono fun _ _ _ h hus hmid => by
      obtain ⟨rfl, hr⟩ := hus
      exact h (hmid ▸ hr)
  rintro stop ⟨_ | ⟨t, rest⟩, made⟩
  · exact ⟨.refl _, fun _ => ⟨[], rfl, rfl, nofun⟩⟩
  · exact ⟨.refl _, fun _ => ⟨[], rfl, rfl, fun h => .cons (by simpa using h)⟩⟩

theorem Sound.accept {f : Option Token → Rule β}
    (hnone : Sound (fun b vs rest => Clear kinds (vs ++ rest) → Q b vs rest) (f none))
    (hsome : ∀ t, Sound (fun b vs rest => t.kind ∈ kinds → Q b (t :: vs) rest) (f (some t))) :
    Sound Q (accept kinds >>= f) := by
  have haccept : Sound (fun r us mid => (r = none → us = [] ∧ Clear kinds mid) ∧
      ∀ t ∈ r, us = [t] ∧ t.kind ∈ kinds) (Rule.accept kinds) := by
    rintro stop ⟨_ | ⟨t, rest⟩, made⟩
    · exact ⟨.refl _, fun _ => ⟨[], rfl, fun _ => ⟨rfl, nofun⟩, nofun⟩⟩
    · unfold Rule.accept
      dsimp only
      split
      · next hk =>
        refine ⟨.refl _, fun _ => ⟨[t], rfl, nofun, ?_⟩⟩
        rintro _ ⟨⟩
        exact ⟨rfl, by simpa using hk⟩
      · next hk =>
        refine ⟨.refl _, fun _ => ⟨[], rfl, fun _ => ⟨rfl, ?_⟩, nofun⟩⟩
        rintro _ ⟨⟩
        simpa using hk
  refine haccept.bind fun r us mid => ?_
  cases r with
  | none =>
    refine hnone.mono fun _ _ _ h hr hmid => ?_
    obtain ⟨rfl, hclear⟩ := hr.1 rfl
    exact h (hmid ▸ hclear)
  | some t =>
    refine (hsome t).mono fun _ _ _ h hr _ => ?_
    obtain ⟨rfl, hk⟩ := hr.2 t rfl
    exact h hk

theorem sound_expect :
    Sound (fun t us _ => t.kind = kind ∧ us = [t]) (Rule.expect kind message) :=
  .accept sound_reject fun t => sound_pure fun _ hk => ⟨by simpa using hk, rfl⟩

theorem Sound.expect {f : Token → Rule β}
    (hf : ∀ t, Sound (fun b vs rest => t.kind = kind → Q b (t :: vs) rest) (f t)) :
    Sound Q (expect kind message >>= f) := by
  refine sound_expect.next fun t us => (hf t).mono fun _ _ _ h hus => ?_
  obtain ⟨hk, rfl⟩ := hus
  exact h hk

end

/-! ### Loops -/

section
variable {p : Rule α} {P : α → List Token → Prop}

theorem sound_piecesInto (hp : Sound (fun a ts _ => P a ts) p) {acc : List α} :
    Sound (fun as ts rest => ∃ ps : Row α, as = acc.reverse ++ ps.trees ∧ ts = ps.tokens ∧
      (∀ q ∈ ps, P q.1 q.2) ∧ (rest = [] ∨ Begins kinds rest ∨ turns.length ≤ ps.length))
      (piecesInto kinds p turns acc) := by
  induction turns generalizing acc with
  | nil => exact sound_pure fun _ => ⟨[], by simp [Row.trees], rfl, nofun, by simp⟩
  | cons _ turns ih =>
    refine .atEnd fun r => .sees fun r' => ?_
    split
    · next hstop =>
      refine sound_pure fun rest hsees hend => ⟨[], by simp [Row.trees], rfl, nofun, ?_⟩
      rcases Bool.or_eq_true_iff.1 hstop with h | h
      · exact .inl (hend h)
      · exact .inr (.inl (hsees h))
    · refine hp.next fun a us => ih.mono ?_
      rintro as ts rest ⟨ps, rfl, rfl, hps, hrest⟩ ha - -
      refine ⟨(a, us) :: ps, by simp [Row.trees], by simp [Row.tokens],
        List.forall_mem_cons.2 ⟨ha, hps⟩, ?_⟩
      simpa using hrest

theorem sound_piecesUntil (hp : Sound (fun a ts _ => P a ts) p) :
    Sound (fun as ts rest => ∃ ps : Row α, as = ps.trees ∧ ts = ps.tokens ∧
      (∀ q ∈ ps, P q.1 q.2) ∧ (rest = [] ∨ Begins kinds rest ∨ (ts ++ rest).length ≤ ps.length))
      (piecesUntil kinds p) :=
  .remaining fun _ => (sound_piecesInto hp).mono fun _ _ _ ⟨ps, has, hts, hps, hrest⟩ hturns =>
    ⟨ps, has, hts, hps, hturns ▸ hrest⟩

/-- The list of pieces `acc`, last one first, was made longer by reading tokens with a comma in
front of each piece. No list gets longer than 255 pieces. -/
def Lengthened (P : α → List Token → Prop) (acc as : List α) (ts : List Token) : Prop :=
  ∃ ps : Row α, as = acc.reverse ++ ps.trees ∧ ps.Further ts ∧ (∀ q ∈ ps, P q.1 q.2) ∧
    (acc.length ≤ 255 → acc.length + ps.length ≤ 255)

omit p in
theorem Lengthened.nil {acc : List α} : Lengthened P acc acc.reverse [] :=
  ⟨[], by simp [Row.trees], .nil, nofun, id⟩

omit p in
theorem Lengthened.cons {acc : List α} (hlt : acc.length < 255) (hcomma : comma.kind = .comma)
    (ha : P a us) (h : Lengthened P (a :: acc) as ts) :
    Lengthened P acc as (comma :: (us ++ ts)) := by
  obtain ⟨ps, rfl, hfurther, hps, hle⟩ := h
  refine ⟨(a, us) :: ps, by simp [Row.trees], .cons hcomma hfurther,
    List.forall_mem_cons.2 ⟨ha, hps⟩, fun _ => ?_⟩
  simp only [List.length_cons] at hle ⊢
  omega

theorem sound_furtherInto (hp : Sound (fun a ts _ => P a ts) p) {acc : List α} :
    Sound (fun as ts _ => Lengthened P acc as ts) (furtherInto complaint p turns acc) := by
  induction turns generalizing acc with
  | nil => exact sound_pure fun _ => .nil
  | cons _ turns ih =>
    refine .accept (sound_pure fun _ _ => .nil) fun comma => ?_
    dsimp only
    split
    · exact .peek fun _ => .complained (R := fun _ _ _ => True)
        (hp.next fun _ _ => ih.mono fun _ _ _ _ _ => trivial)
    · next hlt =>
      refine hp.next fun a us => ih.mono fun as ts _ h ha hcomma => ?_
      exact .cons (by omega) (by simpa using hcomma) ha h

theorem sound_commaList (hp : Sound (fun a ts _ => P a ts) p) :
    Sound (fun as ts _ => ∃ ps : Row α, as = ps.trees ∧ ps.Commas ts ∧ (∀ q ∈ ps, P q.1 q.2) ∧
      ps.length ≤ 255) (commaList complaint p) := by
  refine .sees fun r => ?_
  split
  · exact sound_pure fun _ _ => ⟨[], rfl, .nil, nofun, Nat.zero_le _⟩
  · refine hp.next fun a us => .remaining fun _ => (sound_furtherInto hp).mono ?_
    rintro as ts rest ⟨ps, rfl, hfurther, hps, hle⟩ - ha -
    exact ⟨(a, us) :: ps, by simp [Row.trees], .cons hfurther, List.forall_mem_cons.2 ⟨ha, hps⟩,
      by simpa [Nat.add_comm] using hle (by simp)⟩

end

end Rule

/-! ## Expressions -/

namespace Grammar
open Rule

theorem join_eq_node (l : Level) (h : op.kind ∈ l.operators) :
    join left op right = l.node left op right := by
  unfold join
  cases l with
  | or | and =>
    rw [List.mem_singleton.1 h]
    rfl
  | equality | comparison | term | factor =>
    rw [if_neg]
    · rfl
    · intro hk
      revert h
      rcases (by simpa using hk : op.kind = .kwOr ∨ op.kind = .kwAnd) with hk | hk <;> rw [hk] <;>
        decide

section
variable {p : Rule Expr}

theorem sound_chainInto (l : Level) (hp : Sound (fun e ts _ => Derives n (l.operand e) ts) p) :
    Sound (fun e ts _ => ∀ us, Derives n (.level l left) us → Derives n (.level l e) (us ++ ts))
      (chainInto l.operators p turns left) := by
  have done {left} (us : List Token) (h : Derives n (.level l left) us) :
      Derives n (.level l left) (us ++ []) := by rwa [List.append_nil]
  induction turns generalizing left with
  | nil => exact sound_pure fun _ => done
  | cons _ turns ih =>
    refine .accept (sound_pure fun _ _ => done) fun op => ?_
    refine hp.next fun right vs => ih.mono fun e ts _ h hright hop us hleft => ?_
    rw [join_eq_node l hop] at h
    simpa using h _ (.operator hleft hop hright)

theorem sound_chain (l : Level) (hp : Sound (fun e ts _ => Derives n (l.operand e) ts) p) :
    Sound (fun e ts _ => Derives n (.level l e) ts) (chain l.operators p) :=
  hp.next fun _ us => .remaining fun _ => (sound_chainInto l hp).mono fun _ _ _ h _ hleft =>
    h us (.operand hleft)

theorem sound_binary (hp : Sound (fun e ts _ => Derives n (.unary e) ts) p) :
    Sound (fun e ts _ => Derives n (.level .or e) ts) (binary p levels) :=
  sound_chain .or <| sound_chain .and <| sound_chain .equality <| sound_chain .comparison <|
    sound_chain .term <| sound_chain .factor hp

/-- What an operator is written in is no target of an assignment. -/
theorem assignment?_node (l : Level) : assignment? (l.node left op right) value = none := by
  cases l <;> rfl

/-- A target of an assignment is written without operators. -/
theorem Derives.unary_of_target (h : Derives n (.level l target) ts)
    (ht : assignment? target value ≠ none) : Derives n (.unary target) ts := by
  generalize hx : Nonterminal.level l target = x at h
  induction h generalizing l with
  | @operand _ l' _ _ h ih =>
    obtain ⟨rfl, rfl⟩ := Nonterminal.level.inj hx
    cases l with
    | factor => exact h
    | _ => exact ih rfl
  | operator =>
    obtain ⟨rfl, rfl⟩ := Nonterminal.level.inj hx
    exact absurd (assignment?_node _) ht
  | _ => cases hx

theorem Derives.call_of_target (h : Derives n (.level l target) ts)
    (ht : assignment? target value ≠ none) : ∃ m, n = m + 1 ∧ Derives m (.call target) ts := by
  cases h.unary_of_target ht with
  | unary => exact absurd rfl ht
  | called h => exact ⟨_, rfl, h⟩

theorem derives_assignment (ht : Derives n (.level .or target) us) (hk : equals.kind = .equal)
    (hv : Derives n (.expression value) ts) (he : assignment? target value = some e) :
    Derives (n + 1) (.expression e) (us ++ equals :: ts) := by
  have hne : assignment? target value ≠ none := by simp [he]
  obtain ⟨m, rfl, hcall⟩ := ht.call_of_target hne
  unfold assignment? at he
  split at he
  · cases he
    cases hcall with
    | primary h =>
      cases h with
      | named hn => exact .assign hn hk hv
  · cases he
    cases hcall with
    | primary h => cases h
    | get ho hd hn => simpa using .set ho hd hn hk hv
  · cases he

theorem sound_assignTo (hp : Sound (fun e ts _ => Derives n (.expression e) ts) p) :
    Sound (fun e ts _ => ∀ us, Derives n (.level .or target) us →
      Derives (n + 1) (.expression e) (us ++ ts)) (assignTo p target) := by
  refine .accept (sound_pure fun _ _ us ht => ?_) fun equals => hp.next fun value ts => ?_
  · rw [List.append_nil]
    exact .expression ht
  · cases he : assignment? target value with
    | none => exact .complained (sound_pure (P := fun _ _ _ => True) fun _ => trivial)
    | some e =>
      refine sound_pure fun _ hv hk us ht => ?_
      rw [List.append_nil]
      exact derives_assignment ht (List.mem_singleton.1 hk) hv he

theorem sound_primary (hp : Sound (fun e ts _ => Derives n (.expression e) ts) p) :
    Sound (fun e ts _ => Derives n (.primary e) ts) (primary p) := by
  refine .accept sound_reject fun t => ?_
  dsimp only
  split
  · next hk => exact sound_pure fun _ _ => .constant (.false hk)
  · next hk => exact sound_pure fun _ _ => .constant (.true hk)
  · next hk => exact sound_pure fun _ _ => .constant (.nil hk)
  · next hk =>
    refine .expect fun dot => .expect fun name => sound_pure fun _ hname hdot _ => ?_
    exact .super hk hdot hname
  · next hk => exact sound_pure fun _ _ => .this hk
  · next hk => exact sound_pure fun _ _ => .named hk
  · next hk =>
    refine hp.next fun e us => .expect fun paren => sound_pure fun _ hr he _ => ?_
    exact .grouping hk he hr
  · refine sound_pure fun _ hk => .constant (.literal ?_)
    simp only [List.mem_cons, List.not_mem_nil, or_false] at hk
    grind

theorem sound_suffixesInto (hp : Sound (fun e ts _ => Derives n (.expression e) ts) p) :
    Sound (fun e' ts _ => ∀ us, Derives n (.call e) us → Derives n (.call e') (us ++ ts))
      (suffixesInto p turns e) := by
  have done {e} (us : List Token) (h : Derives n (.call e) us) :
      Derives n (.call e) (us ++ []) := by
    rwa [List.append_nil]
  induction turns generalizing e with
  | nil => exact sound_pure fun _ => done
  | cons _ turns ih =>
    refine .accept (sound_pure fun _ _ => done) fun t => ?_
    dsimp only
    split
    · next hk =>
      refine (sound_commaList hp).next fun as vs => .expect fun paren => ih.mono ?_
      rintro e' ts _ h hparen ⟨row, rfl, hcommas, has, hle⟩ - us he
      simpa using h _ (.call he hk has hcommas hle hparen)
    · next hk =>
      refine .expect fun name => ih.mono fun e' ts _ h hname ht us he => ?_
      have hdot : t.kind = .dot := by simpa [hk] using ht
      simpa using h _ (.get he hdot hname)

theorem sound_call (hp : Sound (fun e ts _ => Derives n (.expression e) ts) p) :
    Sound (fun e ts _ => Derives n (.call e) ts) (call p) :=
  (sound_primary hp).next fun _ us => .remaining fun _ => (sound_suffixesInto hp).mono
    fun _ _ _ h _ he => h us (.primary he)

theorem sound_expression_unary (room : Nat) :
    Sound (fun e ts _ => Derives room (.expression e) ts) (expression room) ∧
      Sound (fun e ts _ => Derives room (.unary e) ts) (unary room) := by
  induction room with
  | zero => exact ⟨sound_tooDeep, sound_tooDeep⟩
  | succ room ih =>
    obtain ⟨hexpression, hunary⟩ := ih
    constructor
    · exact (sound_binary hunary).next fun _ us => (sound_assignTo hexpression).mono
        fun _ _ _ h ht => h us ht
    · refine .accept ((sound_call hexpression).mono fun _ _ _ h _ => .called h) fun op => ?_
      exact .map (hunary.mono fun _ _ _ h hop => .unary hop h)

theorem sound_expression (room : Nat) :
    Sound (fun e ts _ => Derives room (.expression e) ts) (expression room) :=
  (sound_expression_unary room).1

end

/-! ## Statements -/

/-- The tokens derive the statement, and no `else` behind them belongs to an `if` in it. -/
def StatementBefore (n : Nat) (s : Stmt) (ts rest : List Token) : Prop :=
  ∃ dangling, Derives n (.statement dangling s) ts ∧ (dangling = true → Clear [.kwElse] rest)

theorem StatementBefore.whole (h : Derives n (.statement false s) ts) :
    StatementBefore n s ts rest :=
  ⟨false, h, nofun⟩

/-- An `else` behind a statement shows that the statement does not dangle. -/
theorem StatementBefore.of_else (h : StatementBefore n s ts (t :: rest)) (ht : t.kind = .kwElse) :
    Derives n (.statement false s) ts := by
  obtain ⟨dangling, hs, hclear⟩ := h
  cases dangling with
  | false => exact hs
  | true => exact absurd (by simp [ht]) (hclear rfl t rfl)

theorem sound_recovering (hp : Sound P p) : Sound P (recovering p) := by
  intro stop c
  have := hp stop c
  unfold recovering
  cases h : p stop c with
  | read s next => rw [h] at this; exact this
  | gaveUp next => rw [h] at this; exact ⟨this.1, fun hmade => absurd hmade this.2⟩
  | tooDeep => trivial

theorem desugarFor_eq (i : Option Stmt) (c e : Option Expr) (s : Stmt) :
    desugarFor i c e s = behind i (.whileLoop (c.getD (.literal (.bool true))) (followed s e)) := by
  cases i <;> cases e <;> rfl

section
variable {expression : Rule Expr} {declaration statement : Rule Stmt}
  (hexpr : Sound (fun e ts _ => Derives n (.expression e) ts) expression)
  (hdecl : Sound (fun s ts _ => Derives n (.declaration s) ts) declaration)
  (hstmt : Sound (StatementBefore n) statement)
include hexpr

theorem sound_optional :
    Sound (fun e ts _ => Derives n (.optional e) ts) (optional kind expression) := by
  refine .sees fun r => ?_
  split
  · exact sound_pure fun _ _ => .absent
  · exact .map (hexpr.mono fun _ _ _ h _ => .present h)

theorem sound_expressionStatement :
    Sound (fun s ts _ => Derives n (.expressionStatement s) ts) (expressionStatement expression) :=
  hexpr.next fun _ _ => .expect fun _ => sound_pure fun _ hs he => .expressionStatement he hs

theorem sound_varDecl :
    Sound (fun s ts _ => Derives n (.varDecl s) ts) (varDecl expression) := by
  refine .expect fun name => .accept ?_ fun equal => hexpr.next fun e us => ?_
  · exact .expect fun _ => sound_pure fun _ hs _ hn => .varDecl hn hs
  · exact .expect fun _ => sound_pure fun _ hs he hk hn =>
      .varInitializer hn (List.mem_singleton.1 hk) he hs

theorem sound_printStatement (hk : keyword.kind = .kwPrint) :
    Sound (fun s ts _ => Derives (n + 1) (.statement false s) (keyword :: ts))
      (printStatement expression) :=
  hexpr.next fun _ _ => .expect fun _ => sound_pure fun _ hs he => .print hk he hs

theorem sound_returnStatement (hk : keyword.kind = .kwReturn) :
    Sound (fun s ts _ => Derives (n + 1) (.statement false s) (keyword :: ts))
      (returnStatement expression keyword) :=
  (sound_optional hexpr).next fun _ _ => .expect fun _ => sound_pure fun _ hs he =>
    .returning hk he hs

include hstmt

theorem sound_whileLoop (hk : keyword.kind = .kwWhile) :
    Sound (fun s ts rest => StatementBefore (n + 1) s (keyword :: ts) rest)
      (whileLoop expression statement) := by
  refine .expect fun lpar => hexpr.next fun c us => .expect fun rpar => .map (hstmt.mono ?_)
  rintro s ts rest ⟨dangling, hs, hclear⟩ hr hc hl
  exact ⟨dangling, .whileLoop hk hl hc hr hs, hclear⟩

theorem sound_conditional (hk : keyword.kind = .kwIf) :
    Sound (fun s ts rest => StatementBefore (n + 1) s (keyword :: ts) rest)
      (conditional expression statement) := by
  refine .expect fun lpar => hexpr.next fun c us => .expect fun rpar => hstmt.bind fun s ts mid =>
    .accept ?_ fun els => .map (hstmt.mono ?_)
  · refine sound_pure fun rest hclear hs _ hr hc hl => ?_
    obtain ⟨dangling, hs, -⟩ := hs
    rw [List.append_nil]
    exact ⟨true, .ifThen hk hl hc hr hs, fun _ => hclear⟩
  · rintro t vs rest ⟨dangling, ht, hclear⟩ hels hs rfl hr hc hl
    have hels := List.mem_singleton.1 hels
    exact ⟨dangling, .ifElse hk hl hc hr (hs.of_else hels) hels ht, hclear⟩

theorem sound_forLoop (hk : keyword.kind = .kwFor) :
    Sound (fun s ts rest => StatementBefore (n + 1) s (keyword :: ts) rest)
      (forLoop expression statement) := by
  refine .expect fun lpar => ?_
  have rest (i : Option Stmt) : Sound (fun s ts rest => ∀ us, Derives n (.initializer i) us →
        lpar.kind = .leftParen → StatementBefore (n + 1) s (keyword :: lpar :: (us ++ ts)) rest) (do
      let condition ← optional .semicolon expression
      let _ ← expect .semicolon "Expect ';' after loop condition."
      let increment ← optional .rightParen expression
      let _ ← expect .rightParen "Expect ')' after for clauses."
      let body ← statement
      pure (desugarFor i condition increment body)) := by
    refine (sound_optional hexpr).next fun c vs => .expect fun semicolon =>
      (sound_optional hexpr).next fun e ws => .expect fun rpar => .map (hstmt.mono ?_)
    rintro s ts rest ⟨dangling, hs, hclear⟩ hr he hsemicolon hc us hi hl
    rw [desugarFor_eq]
    exact ⟨dangling, .forLoop hk hl hi hc hsemicolon he hr hs, hclear⟩
  refine .accept ?_ fun t => ?_
  · exact (sound_expressionStatement hexpr).next fun s us => (rest (some s)).mono
      fun _ _ _ h hs _ hl => h us (.evaluated hs) hl
  · dsimp only
    split
    · next ht =>
      exact (rest none).mono fun _ _ _ h _ hl => h [t] (.noInitializer ht) hl
    · next ht =>
      refine (sound_varDecl hexpr).next fun s us =>
        (rest (some s)).mono fun _ _ _ h hs hkind hl => ?_
      have hvar : t.kind = .kwVar := by simpa [ht] using hkind
      exact h (t :: us) (.declared hvar hs) hl

omit hexpr hstmt
include hdecl

theorem sound_block :
    Sound (fun ss ts _ => ∃ (ds : Row Stmt) (rb : Token), ss = ds.trees ∧
      ts = ds.tokens ++ [rb] ∧ (∀ d ∈ ds, Derives n (.declaration d.1) d.2) ∧
      rb.kind = .rightBrace) (block declaration) := by
  refine (sound_piecesUntil hdecl).bind fun ss us _ => .expect fun rb => sound_pure ?_
  rintro _ hr ⟨ds, rfl, rfl, hds, -⟩ -
  exact ⟨ds, rb, rfl, rfl, hds, hr⟩

theorem sound_function (kind : String) :
    Sound (fun f ts _ => Derives n (.function f) ts) (function kind declaration) := by
  refine .expect fun name => .expect fun lpar => (sound_commaList sound_expect).next fun ps us =>
    .expect fun rpar => .expect fun lb => .map ((sound_block hdecl).mono ?_)
  rintro _ _ _ ⟨ds, rb, rfl, rfl, hds, he⟩ hb hr ⟨row, rfl, hcommas, hps, hle⟩ hl hn
  exact .function hn hl hps hcommas hle hr hb hds he

theorem sound_classDecl (hk : keyword.kind = .kwClass) :
    Sound (fun s ts _ => Derives (n + 1) (.declaration s) (keyword :: ts))
      (classDecl declaration) := by
  refine .expect fun name => ?_
  have rest (superclass : Option Reference) :
      Sound (fun s ts _ => ∀ us, Superclass superclass us → name.kind = .identifier →
        Derives (n + 1) (.declaration s) (keyword :: name :: (us ++ ts))) (do
        let _ ← expect .leftBrace "Expect '\x7b' before class body."
        let methods ← piecesUntil [.rightBrace] (function "method" declaration)
        let _ ← expect .rightBrace "Expect '\x7d' after class body."
        pure (.classDecl name superclass methods)) := by
    refine .expect fun lb => (sound_piecesUntil (sound_function hdecl _)).bind fun ms vs _ =>
      .expect fun rb => sound_pure ?_
    rintro _ hr ⟨ms, rfl, rfl, hms, -⟩ - hl us hs hn
    exact .classDecl hk hn hs hl hms hr
  refine .accept ?_ fun less => .expect fun t => ?_
  · exact (rest none).mono fun _ _ _ h _ hn => h [] .none hn
  · exact (rest (some ⟨t, none⟩)).mono fun _ _ _ h ht hless hn =>
      h [less, t] (.some (List.mem_singleton.1 hless) ht) hn

end

theorem sound_declaration_statement (room : Nat) :
    Sound (fun s ts _ => Derives room (.declaration s) ts) (declaration room) ∧
      Sound (StatementBefore room) (statement room) := by
  induction room with
  | zero => exact ⟨sound_tooDeep, sound_tooDeep⟩
  | succ room ih =>
    obtain ⟨hdecl, hstmt⟩ := ih
    have hexpr := sound_expression room
    constructor
    · refine sound_recovering (.accept (hstmt.mono ?_) fun t => ?_)
      · rintro s ts rest ⟨dangling, hs, -⟩ -
        exact .statement hs
      dsimp only
      split
      · next hk => exact (sound_classDecl hdecl hk).mono fun _ _ _ h _ => h
      · next hk => exact .map ((sound_function hdecl _).mono fun _ _ _ h _ => .funDecl hk h)
      · refine (sound_varDecl hexpr).mono fun s ts _ h hk => .varDeclaration ?_ h
        simp only [List.mem_cons, List.not_mem_nil, or_false] at hk
        grind
    · refine .accept ((sound_expressionStatement hexpr).mono fun s ts _ h _ => .whole (.plain h))
        fun t => ?_
      dsimp only
      split
      · next hk => exact (sound_forLoop hexpr hstmt hk).mono fun _ _ _ h _ => h
      · next hk => exact (sound_conditional hexpr hstmt hk).mono fun _ _ _ h _ => h
      · next hk => exact (sound_printStatement hexpr hk).mono fun _ _ _ h _ => .whole h
      · next hk => exact (sound_returnStatement hexpr hk).mono fun _ _ _ h _ => .whole h
      · next hk => exact (sound_whileLoop hexpr hstmt hk).mono fun _ _ _ h _ => h
      · refine .map ((sound_block hdecl).mono ?_)
        rintro ss ts _ ⟨ds, rb, rfl, rfl, hds, hr⟩ hk
        refine .whole (.block ?_ hds hr)
        simp only [List.mem_cons, List.not_mem_nil, or_false] at hk
        grind

/-! ## Programs -/

/-- Trees that are written with at least one token each are no more than their tokens. -/
theorem Row.length_le_tokens (ps : Row α) (h : ∀ p ∈ ps, p.2 ≠ []) :
    ps.length ≤ ps.tokens.length := by
  induction ps with
  | nil => exact Nat.le_refl _
  | cons p ps ih =>
    obtain ⟨hp, hps⟩ := List.forall_mem_cons.1 h
    have hpos := List.length_pos_iff.2 hp
    have hrest := ih hps
    simp only [Row.tokens, List.flatMap_cons, List.length_append, List.length_cons] at hrest ⊢
    omega

theorem sound_program (room : Nat) :
    Sound (fun ss ts rest => Derives room (.program ss) ts ∧ rest = []) (program room) := by
  refine (sound_piecesUntil (sound_declaration_statement room).1).mono ?_
  rintro _ _ rest ⟨ds, rfl, rfl, hds, hrest⟩
  refine ⟨.program hds, ?_⟩
  rcases hrest with hrest | ⟨t, ts, -, hmem⟩ | hlen
  · exact hrest
  · cases hmem
  · have hle := Row.length_le_tokens ds fun d hd => by
      obtain ⟨t, ts, hts, -⟩ := (hds d hd).begins _ rfl
      rw [hts]
      nofun
    rw [List.length_append] at hlen
    exact List.eq_nil_of_length_eq_zero (by omega)

/-- Tokens in front of the end are read by a rule as they stand. -/
theorem run_of_ends {p : Rule α} (hts : ∀ t ∈ ts, t.kind ≠ .eof) (hstop : stop.kind = .eof) :
    run p (ts ++ [stop]) = match p stop ⟨ts, []⟩ with
      | .read value next => .finished (some value) next.made.reverse
      | .gaveUp next => .finished none next.made.reverse
      | .tooDeep made => .tooDeep made.reverse := by
  have hfind : (ts ++ [stop]).find? (·.kind = .eof) = some stop := by
    rw [List.find?_append, List.find?_eq_none.2 (by simpa using hts)]
    simp [hstop]
  have htake : (ts ++ [stop]).takeWhile (·.kind ≠ .eof) = ts := by
    rw [List.takeWhile_append_of_pos (by simpa using hts)]
    simp [hstop]
  rw [run, hfind, htake]
  rfl

/-! ## Nothing is missing -/

end Grammar

mutual
/-- Nothing is missing in the expression. -/
def Expr.Whole : Expr → Prop
  | .missing => False
  | .assign _ value => value.Whole
  | .binary left _ right | .logical left _ right => left.Whole ∧ right.Whole
  | .call callee _ arguments => callee.Whole ∧ WholeExprs arguments
  | .get object _ => object.Whole
  | .grouping inner => inner.Whole
  | .set object _ value => object.Whole ∧ value.Whole
  | .unary _ right => right.Whole
  | .literal _ | .super _ _ | .this _ | .variable _ => True
def WholeExprs : List Expr → Prop
  | [] => True
  | e :: rest => e.Whole ∧ WholeExprs rest
end

mutual
/-- Nothing is missing in the statement but an `else` that is not there. -/
def Stmt.Whole : Stmt → Prop
  | .missing => False
  | .block body => WholeStmts body
  | .classDecl _ _ methods => WholeFunctions methods
  | .expression value | .print value => value.Whole
  | .function f => f.Whole
  | .ifElse condition thenBranch .missing => condition.Whole ∧ thenBranch.Whole
  | .ifElse condition thenBranch elseBranch =>
    condition.Whole ∧ thenBranch.Whole ∧ elseBranch.Whole
  | .returning _ value | .varDecl _ value => ∀ e ∈ value, e.Whole
  | .whileLoop condition body => condition.Whole ∧ body.Whole
def Function.Whole : Function → Prop
  | .mk _ _ body => WholeStmts body
def WholeStmts : List Stmt → Prop
  | [] => True
  | s :: rest => s.Whole ∧ WholeStmts rest
def WholeFunctions : List Function → Prop
  | [] => True
  | f :: rest => f.Whole ∧ WholeFunctions rest
end

theorem wholeExprs_iff {es : List Expr} : WholeExprs es ↔ ∀ e ∈ es, e.Whole := by
  induction es with
  | nil => simp [WholeExprs]
  | cons e es ih => simp [WholeExprs, ih]

theorem wholeStmts_iff {ss : List Stmt} : WholeStmts ss ↔ ∀ s ∈ ss, s.Whole := by
  induction ss with
  | nil => simp [WholeStmts]
  | cons s ss ih => simp [WholeStmts, ih]

theorem wholeFunctions_iff {fs : List Function} : WholeFunctions fs ↔ ∀ f ∈ fs, f.Whole := by
  induction fs with
  | nil => simp [WholeFunctions]
  | cons f fs ih => simp [WholeFunctions, ih]

theorem Stmt.Whole.ifElse (hc : Expr.Whole condition) (ht : Stmt.Whole thenBranch)
    (he : Stmt.Whole elseBranch) : (Stmt.ifElse condition thenBranch elseBranch).Whole := by
  cases elseBranch with
  | missing => exact ⟨hc, ht⟩
  | _ => exact ⟨hc, ht, he⟩

namespace Grammar

def Nonterminal.Whole : Nonterminal → Prop
  | program ss => WholeStmts ss
  | declaration s | varDecl s | statement _ s | expressionStatement s => s.Whole
  | function f => f.Whole
  | initializer s => ∀ t ∈ s, t.Whole
  | optional e => ∀ t ∈ e, t.Whole
  | expression e | level _ e | unary e | call e | primary e => e.Whole

theorem Row.forall_trees {P : α → Prop} {ps : Row α} (h : ∀ p ∈ ps, P p.1) :
    ∀ a ∈ ps.trees, P a := by
  intro a ha
  obtain ⟨p, hp, rfl⟩ := List.mem_map.1 ha
  exact h p hp

theorem whole_operand (l : Level) (e : Expr) : (l.operand e).Whole = e.Whole := by
  cases l <;> rfl

theorem whole_behind (hi : ∀ t ∈ i, t.Whole) (hs : s.Whole) : (behind i s).Whole := by
  cases i with
  | none => exact hs
  | some first => exact ⟨hi first rfl, hs, trivial⟩

theorem whole_followed (hs : s.Whole) (he : ∀ t ∈ e, t.Whole) : (followed s e).Whole := by
  cases e with
  | none => exact hs
  | some last => exact ⟨hs, he last rfl, trivial⟩

theorem whole_condition {c : Option Expr} (hc : ∀ e ∈ c, e.Whole) :
    (c.getD (.literal (.bool true))).Whole := by
  cases c with
  | none => trivial
  | some condition => exact hc condition rfl

theorem Derives.whole (h : Derives n x ts) : x.Whole := by
  induction h with
  | program _ ih | block _ _ _ ih => exact wholeStmts_iff.2 (Row.forall_trees ih)
  | classDecl _ _ _ _ _ _ ih => exact wholeFunctions_iff.2 (Row.forall_trees ih)
  | function _ _ _ _ _ _ _ _ _ ih => exact wholeStmts_iff.2 (Row.forall_trees ih)
  | funDecl _ _ ih | varDeclaration _ _ ih | statement _ ih | plain _ ih | print _ _ _ ih
  | returning _ _ _ ih | expressionStatement _ _ ih | assign _ _ _ ih | expression _ ih
  | unary _ _ ih | called _ ih | primary _ ih | get _ _ _ ih | grouping _ _ _ ih => exact ih
  | varDecl | absent | noInitializer => nofun
  | varInitializer _ _ _ _ ih | declared _ _ ih | evaluated _ ih | present _ ih =>
    rintro _ ⟨⟩
    exact ih
  | forLoop _ _ _ _ _ _ _ _ hi hc he hs =>
    exact whole_behind hi ⟨whole_condition hc, whole_followed hs he⟩
  | ifThen _ _ _ _ _ hc hs => exact ⟨hc, hs⟩
  | ifElse _ _ _ _ _ _ _ hc hs ht => exact .ifElse hc hs ht
  | whileLoop _ _ _ _ _ hc hs => exact ⟨hc, hs⟩
  | set _ _ _ _ _ ho hv => exact ⟨ho, hv⟩
  | operand _ ih => rwa [whole_operand] at ih
  | @operator _ l _ _ _ _ _ _ _ _ hl hr =>
    rw [whole_operand] at hr
    cases l <;> exact ⟨hl, hr⟩
  | call _ _ _ _ _ _ hf has => exact ⟨hf, wholeExprs_iff.2 (Row.forall_trees has)⟩
  | constant | this | named | super => trivial

theorem Reading.finished_of_value? {r : Reading α} (hv : r.value? = some a) (hr : r.reports = []) :
    r = .finished a [] := by
  cases r with
  | finished value reports =>
    cases hv
    cases hr
    rfl
  | tooDeep => cases hv

theorem derives_of_readProgram (hts : ∀ t ∈ ts, t.kind ≠ .eof) (hstop : stop.kind = .eof)
    (h : readProgram room (ts ++ [stop]) = .finished ss []) : Derives room (.program ss) ts := by
  have hsound := sound_program room stop ⟨ts, []⟩
  rw [readProgram, run_of_ends hts hstop] at h
  cases hr : program room stop ⟨ts, []⟩ with
  | read value next =>
    simp only [hr, Option.getD_some, Reading.finished.injEq, List.reverse_eq_nil_iff] at h hsound
    obtain ⟨rfl, hmade⟩ := h
    obtain ⟨us, hus, hderives, hrest⟩ := hsound.2 hmade
    rw [hrest, List.append_nil] at hus
    obtain rfl : ts = us := hus
    exact hderives
  | gaveUp next =>
    simp only [hr, Reading.finished.injEq, List.reverse_eq_nil_iff] at h hsound
    exact absurd h.2 hsound.2
  | tooDeep => simp [hr] at h

/-- A program that is read without a report has nothing missing, and its grammar derivation takes
exactly the tokens in front of the end. -/
theorem silent_reading_derives (hts : ∀ t ∈ ts, t.kind ≠ .eof) (hstop : stop.kind = .eof)
    (h : readProgram room (ts ++ [stop]) = .finished ss []) :
    WholeStmts ss ∧ Derives room (.program ss) ts := by
  have hderives := derives_of_readProgram hts hstop h
  exact ⟨hderives.whole, hderives⟩

/-- A loop, a conditional in a conditional, an assignment to a property and a chain of operators. -/
theorem silent_reading_derives_of_loop :
    ∃ ts stop ss, (scan (String.toList
        "for (var i = 0; i < 9; i = i - 1 - 2) if (i) if (f(i, 2)) o.p.q = i = 1; else print -i;"
        )).tokens = ts ++ [stop] ∧
      readProgram 40 (ts ++ [stop]) = .finished ss [] ∧ ss ≠ [] ∧
      WholeStmts ss ∧ Derives 40 (.program ss) ts := by
  obtain ⟨ts, hends, hts⟩ := scan_ends (String.toList
    "for (var i = 0; i < 9; i = i - 1 - 2) if (i) if (f(i, 2)) o.p.q = i = 1; else print -i;")
  obtain ⟨ss, hvalue, hss⟩ : ∃ ss, (readProgram 40 (scan (String.toList
      "for (var i = 0; i < 9; i = i - 1 - 2) if (i) if (f(i, 2)) o.p.q = i = 1; else print -i;"
      )).tokens).value? = some ss ∧ ss.length = 1 :=
    ⟨_, (Option.some_get (by decide +kernel)).symm, by decide +kernel⟩
  have hread := Reading.finished_of_value? hvalue (by decide +kernel)
  rw [hends] at hread
  refine ⟨ts, _, ss, hends, hread, ?_, silent_reading_derives hts rfl hread⟩
  rintro rfl
  cases hss

end Grammar

end LoxLang
