import LoxLang.Proofs.Parsing.Derivation
import LoxLang.Proofs.Piecewise.Matching
import LoxLang.Proofs.Piecewise.Sources

/-!
# Derivations of tokens that are put elsewhere

The tokens of a text that stands at another place in a source derive a tree that matches, nested as
deeply as before (`Derives.put`).
-/

namespace LoxLang.Grammar

variable {P : Pairing} {f : Place → Place}

/-! ## Rows -/

namespace Row

variable {α : Type} {R : α → α → Prop} {ps ps' : Row α}

/-- A row whose trees are related to those of another one, with its tokens put elsewhere. -/
def Moved (f : Place → Place) (R : α → α → Prop) : Row α → Row α → Prop :=
  List.Forall₂ fun p p' => R p.1 p'.1 ∧ p'.2 = p.2.map (.put f)

theorem exists_moved {D : α → List Token → Prop}
    (h : ∀ p ∈ ps, ∃ a, R p.1 a ∧ D a (p.2.map (.put f))) :
    ∃ ps', Moved f R ps ps' ∧ ∀ p ∈ ps', D p.1 p.2 := by
  induction ps with
  | nil => exact ⟨[], .nil, List.forall_mem_nil _⟩
  | cons p ps ih =>
    obtain ⟨⟨a, ha, hd⟩, h⟩ := List.forall_mem_cons.1 h
    obtain ⟨ps', hps, hds⟩ := ih h
    exact ⟨(a, _) :: ps', .cons ⟨ha, rfl⟩ hps, List.forall_mem_cons.2 ⟨hd, hds⟩⟩

namespace Moved

theorem trees (h : Moved f R ps ps') : List.Forall₂ R ps.trees ps'.trees := by
  induction h with
  | nil => exact .nil
  | cons hp _ ih => exact .cons hp.1 ih

theorem tokens (h : Moved f R ps ps') : ps'.tokens = ps.tokens.map (.put f) := by
  induction h with
  | nil => rfl
  | cons hp _ ih =>
    simp only [Row.tokens, List.flatMap_cons, List.map_append, hp.2] at ih ⊢
    rw [ih]

theorem further (h : Moved f R ps ps') (hc : ps.Further us) : ps'.Further (us.map (.put f)) := by
  induction hc generalizing ps' with
  | nil => cases h; exact .nil
  | cons hcomma _ ih =>
    obtain ⟨⟨a, ts⟩, ps', ⟨-, rfl⟩, hps, rfl⟩ := List.forall₂_cons_left_iff.1 h
    rw [List.map_cons, List.map_append]
    exact .cons hcomma (ih hps)

theorem commas (h : Moved f R ps ps') (hc : ps.Commas us) : ps'.Commas (us.map (.put f)) := by
  cases hc with
  | nil => cases h; exact .nil
  | cons hc =>
    obtain ⟨⟨a, ts⟩, ps', ⟨-, rfl⟩, hps, rfl⟩ := List.forall₂_cons_left_iff.1 h
    rw [List.map_append]
    exact .cons (further hps hc)

end Moved

theorem mem_tokens {p : α × List Token} (hp : p ∈ ps) (ht : t ∈ p.2) : t ∈ ps.tokens :=
  List.mem_flatMap.2 ⟨p, hp, ht⟩

theorem Further.mem {p : α × List Token} (h : ps.Further us) (hp : p ∈ ps) (ht : t ∈ p.2) :
    t ∈ us := by
  induction h with
  | nil => cases hp
  | cons _ _ ih =>
    rcases List.mem_cons.1 hp with rfl | hp
    · simp [ht]
    · simp [ih hp]

theorem Commas.mem {p : α × List Token} (h : ps.Commas us) (hp : p ∈ ps) (ht : t ∈ p.2) :
    t ∈ us := by
  cases h with
  | nil => cases hp
  | cons h =>
    rcases List.mem_cons.1 hp with rfl | hp
    · simp [ht]
    · simp [h.mem hp ht]

end Row

/-! ## Parts of statements -/

theorem matches_stmts (h : List.Forall₂ (StmtMatches P) ss ss') :
    Matches P (.stmts ss) (.stmts ss') := by
  induction h with
  | nil => exact .noStmts
  | cons h _ ih => exact .stmts h ih

theorem matches_exprs (h : List.Forall₂ (ExprMatches P) es es') :
    Matches P (.exprs es) (.exprs es') := by
  induction h with
  | nil => exact .noExprs
  | cons h _ ih => exact .exprs h ih

theorem matches_behind (hi : Option.Rel (StmtMatches P) i i') (h : StmtMatches P s s') :
    StmtMatches P (behind i s) (behind i' s') := by
  cases hi with
  | none => exact h
  | some hi => exact .block (.stmts hi (.stmts h .noStmts))

theorem matches_followed (he : Option.Rel (ExprMatches P) e e') (h : StmtMatches P s s') :
    StmtMatches P (followed s e) (followed s' e') := by
  cases he with
  | none => exact h
  | some he => exact .block (.stmts h (.stmts (.expression he) .noStmts))

theorem matches_condition (hc : Option.Rel (ExprMatches P) c c') :
    ExprMatches P (c.getD (.literal (.bool true))) (c'.getD (.literal (.bool true))) := by
  cases hc with
  | none => exact .literal
  | some hc => exact hc

theorem matches_returning (ht : P.rel t t') (he : Option.Rel (ExprMatches P) e e') :
    StmtMatches P (.returning t e) (.returning t' e') := by
  cases he with
  | none => exact .returnNil ht
  | some he => exact .returnValue ht he

theorem Level.matches_node (l : Level) (ha : ExprMatches P a a') (ht : P.rel t t')
    (hb : ExprMatches P b b') : ExprMatches P (l.node a t b) (l.node a' t' b') := by
  cases l with
  | or | and => exact .logical ha ht hb
  | _ => exact .binary ha ht hb

/-- A reference that is not resolved yet. -/
theorem matches_put (h : P.rel t (t.put f)) :
    Reference.Matches P ⟨t, none⟩ ⟨t.put f, none⟩ := ⟨h, rfl⟩

theorem Denotes.put (h : Denotes t c) : Denotes (t.put f) c := by
  cases h with
  | false h => exact .false h
  | true h => exact .true h
  | nil h => exact .nil h
  | literal h => exact .literal h

/-! ## What is derived -/

/-- The tokens derive what matches the nonterminal. -/
abbrev Nonterminal.DerivedAlike (P : Pairing) (n : Nat) (ts : List Token) : Nonterminal → Prop
  | .program ss => ∃ ss', Matches P (.stmts ss) (.stmts ss') ∧ Derives n (.program ss') ts
  | .declaration s => ∃ s', StmtMatches P s s' ∧ Derives n (.declaration s') ts
  | .function f => ∃ f', FunctionMatches P f f' ∧ Derives n (.function f') ts
  | .varDecl s => ∃ s', StmtMatches P s s' ∧ Derives n (.varDecl s') ts
  | .statement dangling s => ∃ s', StmtMatches P s s' ∧ Derives n (.statement dangling s') ts
  | .expressionStatement s => ∃ s', StmtMatches P s s' ∧ Derives n (.expressionStatement s') ts
  | .initializer i => ∃ i', Option.Rel (StmtMatches P) i i' ∧ Derives n (.initializer i') ts
  | .optional e => ∃ e', Option.Rel (ExprMatches P) e e' ∧ Derives n (.optional e') ts
  | .expression e => ∃ e', ExprMatches P e e' ∧ Derives n (.expression e') ts
  | .level l e => ∃ e', ExprMatches P e e' ∧ Derives n (.level l e') ts
  | .unary e => ∃ e', ExprMatches P e e' ∧ Derives n (.unary e') ts
  | .call e => ∃ e', ExprMatches P e e' ∧ Derives n (.call e') ts
  | .primary e => ∃ e', ExprMatches P e e' ∧ Derives n (.primary e') ts

theorem Level.derivedAlike_operand {l : Level} (h : (l.operand e).DerivedAlike P n ts) :
    ∃ e', ExprMatches P e e' ∧ Derives n (l.operand e') ts := by
  cases l <;> exact h

/-- Tokens that are put elsewhere derive what matches. -/
theorem Derives.put (h : Derives n x ts) :
    (∀ t ∈ ts, P.rel t (t.put f)) → x.DerivedAlike P n (ts.map (.put f)) := by
  induction h with
  | @program n ds _ ih =>
    intro hP
    obtain ⟨ds', hds, hd⟩ := Row.exists_moved fun d hd =>
      ih d hd fun t ht => hP t (Row.mem_tokens hd ht)
    exact ⟨_, matches_stmts hds.trees, hds.tokens ▸ .program hd⟩
  | @classDecl _ _ n _ _ _ _ ms hk hn hs hl _ hr ih =>
    intro hP
    obtain ⟨ms', hms, hm⟩ := Row.exists_moved (R := FunctionMatches P)
      (D := fun f ts => Derives n (.function f) ts) fun m hm =>
        ih m hm fun t ht => hP t (by simp [Row.mem_tokens hm ht])
    simp only [List.map_cons, List.map_append, List.map_nil, ← hms.tokens]
    cases hs with
    | none =>
      exact ⟨_, .classDecl_of_forall₂ (hP _ (by simp)) .none hms.trees,
        .classDecl hk hn .none hl hm hr⟩
    | some hless hname =>
      exact ⟨_,
        .classDecl_of_forall₂ (hP _ (by simp)) (.some (matches_put (hP _ (by simp)))) hms.trees,
        .classDecl hk hn (.some hless hname) hl hm hr⟩
  | funDecl hk _ ih =>
    intro hP
    obtain ⟨_, hf, hd⟩ := ih fun t ht => hP t (by simp [ht])
    exact ⟨_, .function hf, .funDecl hk hd⟩
  | varDeclaration hk _ ih =>
    intro hP
    obtain ⟨_, hs, hd⟩ := ih fun t ht => hP t (by simp [ht])
    exact ⟨_, hs, .varDeclaration hk hd⟩
  | statement _ ih =>
    intro hP
    obtain ⟨_, hs, hd⟩ := ih hP
    exact ⟨_, hs, .statement hd⟩
  | @function _ _ _ _ _ _ _ ps ds hn hl hps hc hle hr hb _ he ih =>
    intro hP
    obtain ⟨ps', hps', hp⟩ := Row.exists_moved (R := P.rel)
      (D := fun p ts => p.kind = .identifier ∧ ts = [p]) fun p hp => by
        obtain ⟨hk, hts⟩ := hps p hp
        have hmem := hc.mem hp (hts ▸ List.mem_singleton_self p.1)
        exact ⟨p.1.put f, hP _ (by simp [hmem]), hk, by rw [hts, List.map_singleton]⟩
    obtain ⟨ds', hds, hd⟩ := Row.exists_moved fun d hd =>
      ih d hd fun t ht => hP t (by simp [Row.mem_tokens hd ht])
    simp only [List.map_cons, List.map_append, List.map_nil, ← hds.tokens]
    exact ⟨_, .body (hP _ (by simp)) hps'.trees (matches_stmts hds.trees),
      .function hn hl hp (hps'.commas hc) (hps'.length_eq ▸ hle) hr hb hd he⟩
  | varDecl hn hs =>
    intro hP
    exact ⟨_, .varNil (hP _ (by simp)), .varDecl hn hs⟩
  | varInitializer hn he _ hs ih =>
    intro hP
    obtain ⟨_, hm, hd⟩ := ih fun t ht => hP t (by simp [ht])
    simp only [List.map_cons, List.map_append, List.map_nil]
    exact ⟨_, .varValue (hP _ (by simp)) hm, .varInitializer hn he hd hs⟩
  | plain _ ih =>
    intro hP
    obtain ⟨_, hs, hd⟩ := ih hP
    exact ⟨_, hs, .plain hd⟩
  | forLoop hk hl _ _ hs _ hr _ hi hc he ih =>
    intro hP
    obtain ⟨_, hmi, hdi⟩ := hi fun t ht => hP t (by simp [ht])
    obtain ⟨_, hmc, hdc⟩ := hc fun t ht => hP t (by simp [ht])
    obtain ⟨_, hme, hde⟩ := he fun t ht => hP t (by simp [ht])
    obtain ⟨_, hm, hd⟩ := ih fun t ht => hP t (by simp [ht])
    simp only [List.map_cons, List.map_append]
    exact ⟨_, matches_behind hmi (.whileLoop (matches_condition hmc) (matches_followed hme hm)),
      .forLoop hk hl hdi hdc hs hde hr hd⟩
  | ifThen hk hl _ hr _ ihc ihs =>
    intro hP
    obtain ⟨_, hc, hdc⟩ := ihc fun t ht => hP t (by simp [ht])
    obtain ⟨_, hs, hds⟩ := ihs fun t ht => hP t (by simp [ht])
    simp only [List.map_cons, List.map_append]
    exact ⟨_, .ifElse hc hs .noStmt, .ifThen hk hl hdc hr hds⟩
  | ifElse hk hl _ hr _ he _ ihc ihs iht =>
    intro hP
    obtain ⟨_, hc, hdc⟩ := ihc fun t ht => hP t (by simp [ht])
    obtain ⟨_, hs, hds⟩ := ihs fun t ht => hP t (by simp [ht])
    obtain ⟨_, ht, hdt⟩ := iht fun t ht => hP t (by simp [ht])
    simp only [List.map_cons, List.map_append]
    exact ⟨_, .ifElse hc hs ht, .ifElse hk hl hdc hr hds he hdt⟩
  | print hk _ hs ih =>
    intro hP
    obtain ⟨_, hm, hd⟩ := ih fun t ht => hP t (by simp [ht])
    simp only [List.map_cons, List.map_append, List.map_nil]
    exact ⟨_, .print hm, .print hk hd hs⟩
  | returning hk _ hs ih =>
    intro hP
    obtain ⟨_, hm, hd⟩ := ih fun t ht => hP t (by simp [ht])
    simp only [List.map_cons, List.map_append, List.map_nil]
    exact ⟨_, matches_returning (hP _ (by simp)) hm, .returning hk hd hs⟩
  | whileLoop hk hl _ hr _ ihc ihs =>
    intro hP
    obtain ⟨_, hc, hdc⟩ := ihc fun t ht => hP t (by simp [ht])
    obtain ⟨_, hs, hds⟩ := ihs fun t ht => hP t (by simp [ht])
    simp only [List.map_cons, List.map_append]
    exact ⟨_, .whileLoop hc hs, .whileLoop hk hl hdc hr hds⟩
  | block hl _ hr ih =>
    intro hP
    obtain ⟨ds', hds, hd⟩ := Row.exists_moved fun d hd =>
      ih d hd fun t ht => hP t (by simp [Row.mem_tokens hd ht])
    simp only [List.map_cons, List.map_append, List.map_nil, ← hds.tokens]
    exact ⟨_, .block (matches_stmts hds.trees), .block hl hd hr⟩
  | expressionStatement _ hs ih =>
    intro hP
    obtain ⟨_, hm, hd⟩ := ih fun t ht => hP t (by simp [ht])
    simp only [List.map_cons, List.map_append, List.map_nil]
    exact ⟨_, .expression hm, .expressionStatement hd hs⟩
  | noInitializer hs => exact fun _ => ⟨_, .none, .noInitializer hs⟩
  | declared hk _ ih =>
    intro hP
    obtain ⟨_, hm, hd⟩ := ih fun t ht => hP t (by simp [ht])
    exact ⟨_, .some hm, .declared hk hd⟩
  | evaluated _ ih =>
    intro hP
    obtain ⟨_, hm, hd⟩ := ih hP
    exact ⟨_, .some hm, .evaluated hd⟩
  | absent => exact fun _ => ⟨_, .none, .absent⟩
  | present _ ih =>
    intro hP
    obtain ⟨_, hm, hd⟩ := ih hP
    exact ⟨_, .some hm, .present hd⟩
  | assign hn he _ ih =>
    intro hP
    obtain ⟨_, hm, hd⟩ := ih fun t ht => hP t (by simp [ht])
    exact ⟨_, .assign (matches_put (hP _ (by simp))) hm, .assign hn he hd⟩
  | set _ hdot hn he _ iho ihv =>
    intro hP
    obtain ⟨_, ho, hdo⟩ := iho fun t ht => hP t (by simp [ht])
    obtain ⟨_, hv, hdv⟩ := ihv fun t ht => hP t (by simp [ht])
    simp only [List.map_cons, List.map_append]
    exact ⟨_, .set ho (hP _ (by simp)) hv, .set hdo hdot hn he hdv⟩
  | expression _ ih =>
    intro hP
    obtain ⟨_, hm, hd⟩ := ih hP
    exact ⟨_, hm, .expression hd⟩
  | operand _ ih =>
    intro hP
    obtain ⟨_, hm, hd⟩ := Level.derivedAlike_operand (ih hP)
    exact ⟨_, hm, .operand hd⟩
  | @operator _ l _ _ _ _ _ _ hop _ ihl ihr =>
    intro hP
    obtain ⟨_, hl, hdl⟩ := ihl fun t ht => hP t (by simp [ht])
    obtain ⟨_, hr, hdr⟩ := Level.derivedAlike_operand (ihr fun t ht => hP t (by simp [ht]))
    simp only [List.map_cons, List.map_append]
    exact ⟨_, l.matches_node hl (hP _ (by simp)) hr, .operator hdl hop hdr⟩
  | unary hop _ ih =>
    intro hP
    obtain ⟨_, hm, hd⟩ := ih fun t ht => hP t (by simp [ht])
    exact ⟨_, .unary (hP _ (by simp)) hm, .unary hop hd⟩
  | called _ ih =>
    intro hP
    obtain ⟨_, hm, hd⟩ := ih hP
    exact ⟨_, hm, .called hd⟩
  | primary _ ih =>
    intro hP
    obtain ⟨_, hm, hd⟩ := ih hP
    exact ⟨_, hm, .primary hd⟩
  | call _ hl _ hc hle hr ihf ihas =>
    intro hP
    obtain ⟨_, hf, hdf⟩ := ihf fun t ht => hP t (by simp [ht])
    obtain ⟨as', has, ha⟩ := Row.exists_moved fun a ha =>
      ihas a ha fun t ht => hP t (by simp [hc.mem ha ht])
    simp only [List.map_cons, List.map_append, List.map_nil]
    exact ⟨_, .call hf (hP _ (by simp)) (matches_exprs has.trees),
      .call hdf hl ha (has.commas hc) (has.length_eq ▸ hle) hr⟩
  | get _ hdot hn ih =>
    intro hP
    obtain ⟨_, hm, hd⟩ := ih fun t ht => hP t (by simp [ht])
    simp only [List.map_cons, List.map_append, List.map_nil]
    exact ⟨_, .get hm (hP _ (by simp)), .get hd hdot hn⟩
  | constant h => exact fun _ => ⟨_, .literal, .constant h.put⟩
  | this hk => exact fun hP => ⟨_, .this (matches_put (hP _ (by simp))), .this hk⟩
  | named hn => exact fun hP => ⟨_, .variable (matches_put (hP _ (by simp))), .named hn⟩
  | grouping hl _ hr ih =>
    intro hP
    obtain ⟨_, hm, hd⟩ := ih fun t ht => hP t (by simp [ht])
    simp only [List.map_cons, List.map_append, List.map_nil]
    exact ⟨_, .grouping hm, .grouping hl hd hr⟩
  | super hk hdot hn =>
    exact fun hP => ⟨_, .super (matches_put (hP _ (by simp))) (hP _ (by simp)), .super hk hdot hn⟩

/-- One program behind another. -/
theorem Derives.append (h : Derives n (.program ss) ts) (h' : Derives n (.program ss') ts') :
    Derives n (.program (ss ++ ss')) (ts ++ ts') := by
  cases h with
  | @program _ ds hds =>
    cases h' with
    | @program _ ds' hds' =>
      have happend := Derives.program (List.forall_mem_append.2 ⟨hds, hds'⟩)
      rwa [Row.trees, List.map_append, Row.tokens, List.flatMap_append] at happend

end LoxLang.Grammar
