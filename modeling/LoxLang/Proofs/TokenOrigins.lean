import LoxLang.Proofs.InnerRuns
import LoxLang.Proofs.Parsing.Contents
import LoxLang.Proofs.Histories

/-!
# Where tokens come from

Nothing that a session does makes a token but scanning a source: what is read has the tokens of its
source (`readProgram_within`), resolution blames the tokens of the tree (`from_of_findings`), and a
run fails at the tokens of the functions it has met (`TokensIn.failing`). That reading, resolving
and running treat tokens that stand for one another alike is known; it is used here of the pairing
in which the tokens of some sources stand for themselves, and no other token for any
(`Pairing.within`).
-/

namespace LoxLang

/-- The tokens of some kind stand for themselves, and no other token for any. -/
def Pairing.within (S : Token → Prop) : Pairing where
  rel t t' := S t ∧ t' = t
  kind h := congrArg Token.kind h.2
  lexeme h := congrArg Token.lexeme h.2

variable {S : Token → Prop}

theorem Pairing.keepsContents_within : (Pairing.within S).KeepsContents :=
  fun _ _ h => congrArg Token.content h.2

theorem Pairing.forall₂_within (h : ∀ t ∈ ts, S t) :
    List.Forall₂ (Pairing.within S).rel ts ts := List.forall₂_same.2 fun t ht => ⟨h t ht, rfl⟩

namespace Report

/-- The report is at the token, from reading it or from running it. -/
def At (r : Report) (t : Token) : Prop :=
  ∃ message, r = .atToken t message ∨ r = .atRuntime (some t) message

/-- A report without a lexeme, or at a token of some kind. -/
inductive From (S : Token → Prop) (r : Report) : Prop where
  | placeless : r.lexeme = "" → From S r
  | located {t : Token} : S t → r.At t → From S r

theorem from_atToken (ht : S t) (message : String) : (atToken t message).From S :=
  .located ht ⟨message, .inl rfl⟩

theorem from_atRuntime (ht : S t) (message : String) : (atRuntime (some t) message).From S :=
  .located ht ⟨message, .inr rfl⟩

end Report

/-! ## Readings -/

namespace Grammar

theorem from_of_matches (h : List.Forall₂ (Report.Matches (.within S)) rs rs') :
    ∀ r ∈ rs, r.From S := by
  induction h with
  | nil => exact List.forall_mem_nil _
  | cons hr _ ih =>
    refine List.forall_mem_cons.2 ⟨?_, ih⟩
    cases hr with
    | atToken ht => exact Report.from_atToken ht.1 _

variable {source : List Char}

theorem not_forall_ne_eof (source : List Char) : ¬ ∀ t ∈ (scan source).tokens, t.kind ≠ .eof := by
  intro h
  rw [tokens_scan] at h
  exact h _ (List.mem_append_right _ (List.mem_singleton_self _)) rfl

/-- A program has the tokens of its source, and the reports on it are at tokens of the source. -/
theorem readProgram_within (hS : ∀ t ∈ (scan source).tokens, S t) (room : Nat) :
    (∀ r ∈ (readProgram room (scan source).tokens).reports, r.From S) ∧
      ∀ program, (readProgram room (scan source).tokens).value? = some program →
        Matches (.within S) (.stmts program) (.stmts program) := by
  have hread := readProgram_matches Pairing.keepsContents_within
    (fun hnone => absurd hnone (not_forall_ne_eof source)) room (Pairing.forall₂_within hS)
  generalize readProgram room (scan source).tokens = o at hread ⊢
  cases hread with
  | finished hss hr =>
    refine ⟨from_of_matches hr, ?_⟩
    rintro _ ⟨⟩
    exact matches_stmts hss
  | tooDeep hr => exact ⟨from_of_matches hr, nofun⟩

theorem readExpression_within (hS : ∀ t ∈ (scan source).tokens, S t) (room : Nat) :
    (∀ r ∈ (readExpression room (scan source).tokens).reports, r.From S) ∧
      ∀ e, (readExpression room (scan source).tokens).value? = some (some e) →
        ExprMatches (.within S) e e := by
  have hread := run_matches (alike_wholeExpression Pairing.keepsContents_within room)
    (fun hnone => absurd hnone (not_forall_ne_eof source)) (Pairing.forall₂_within hS)
  unfold readExpression
  generalize run (wholeExpression room) (scan source).tokens = o at hread ⊢
  cases hread with
  | finished he hr =>
    refine ⟨from_of_matches hr, ?_⟩
    rintro _ ⟨⟩
    cases he with
    | some he => exact he
  | tooDeep hr => exact ⟨from_of_matches hr, nofun⟩

end Grammar

/-! ## Findings -/

theorem of_mem_findingIf (ht : S t) : ∀ f ∈ findingIf condition t v, S f.1 := by
  cases condition
  · exact List.forall_mem_nil _
  · exact List.forall_mem_singleton.2 ht

/-- Whatever resolution finds at a node is at tokens of some kind. -/
def Node.FindsAt (S : Token → Prop) : Node → Prop
  | .expr e => ∀ around Γ, ∀ f ∈ (e.resolve around Γ).2, S f.1
  | .exprs es => ∀ around Γ, ∀ f ∈ (resolveExprs around Γ es).2, S f.1
  | .stmt s => ∀ around Γ, ∀ f ∈ (s.resolve around Γ).findings, S f.1
  | .stmts ss => ∀ around Γ, ∀ f ∈ (resolveStmts around Γ ss).findings, S f.1
  | .function f => ∀ around Γ, ∀ g ∈ (f.resolve around Γ).2, S g.1

theorem Scope.introduceAll_findsAt (h : ∀ p ∈ ps, S p) (Γ : List Scope) :
    ∀ f ∈ (introduceAll ps Γ).2, S f.1 := by
  induction ps generalizing Γ with
  | nil => exact List.forall_mem_nil _
  | cons p ps ih =>
    obtain ⟨hp, hps⟩ := List.forall_mem_cons.1 h
    exact List.forall_mem_append.2 ⟨of_mem_findingIf hp, ih hps _⟩

theorem resolveMethods_findsAt (h : ∀ f ∈ fs, Node.FindsAt S (.function f)) (around : Enclosing)
    (Γ : List Scope) : ∀ g ∈ (resolveMethods around Γ fs).2, S g.1 := by
  induction fs with
  | nil => exact List.forall_mem_nil _
  | cons f fs ih =>
    obtain ⟨hf, hfs⟩ := List.forall_mem_cons.1 h
    exact List.forall_mem_append.2 ⟨hf _ _, ih hfs⟩

theorem Enclosing.superFindings_at (ht : S t) (around : Enclosing) :
    ∀ f ∈ around.superFindings t, S f.1 := by
  unfold superFindings
  split
  · exact List.forall_mem_singleton.2 ht
  · exact List.forall_mem_singleton.2 ht
  · exact List.forall_mem_nil _

theorem Enclosing.returnFindings_at (ht : S t) (around : Enclosing) (hasValue : Bool) :
    ∀ f ∈ around.returnFindings t hasValue, S f.1 :=
  List.forall_mem_append.2 ⟨of_mem_findingIf ht, of_mem_findingIf ht⟩

/-- What resolution finds in a tree of such tokens is at them. -/
theorem Matches.findsAt (h : Matches (.within S) n n') : n.FindsAt S := by
  induction h with
  | noExpr | literal | noExprs | noStmt | noStmts => exact fun around Γ => List.forall_mem_nil _
  | assign _ _ ih | get _ _ ih | grouping _ ih | unary _ _ ih => exact ih
  | expression _ ih | print _ ih => exact ih
  | block _ ih => exact fun around Γ => ih around _
  | binary _ _ _ ih ih' | call _ _ _ ih ih' | logical _ _ _ ih ih' | exprs _ _ ih ih' =>
    exact fun around Γ => List.forall_mem_append.2 ⟨ih around Γ, ih' around Γ⟩
  | set _ _ _ ih ih' => exact fun around Γ => List.forall_mem_append.2 ⟨ih' around Γ, ih around Γ⟩
  | super hk => exact fun around Γ => around.superFindings_at hk.name.1
  | this hk =>
    intro around Γ
    simp only [Expr.resolve]
    split
    · exact List.forall_mem_singleton.2 hk.name.1
    · exact List.forall_mem_nil _
  | «variable» hr => exact fun around Γ => of_mem_findingIf hr.name.1
  | ifElse _ _ _ ihc iht ihe =>
    exact fun around Γ => List.forall_mem_append.2
      ⟨List.forall_mem_append.2 ⟨ihc around Γ, iht around Γ⟩, ihe around _⟩
  | whileLoop _ _ ih ih' =>
    exact fun around Γ => List.forall_mem_append.2 ⟨ih around Γ, ih' around Γ⟩
  | stmts _ _ ih ih' => exact fun around Γ => List.forall_mem_append.2 ⟨ih around Γ, ih' around _⟩
  | function hf ih =>
    exact fun around Γ => List.forall_mem_append.2 ⟨of_mem_findingIf hf.name.1, ih _ _⟩
  | returnNil ht =>
    exact fun around Γ => List.forall_mem_append.2
      ⟨around.returnFindings_at ht.1 false, List.forall_mem_nil _⟩
  | returnValue ht _ ih =>
    exact fun around Γ => List.forall_mem_append.2 ⟨around.returnFindings_at ht.1 true, ih around Γ⟩
  | varNil ht =>
    exact fun around Γ => List.forall_mem_append.2 ⟨of_mem_findingIf ht.1, List.forall_mem_nil _⟩
  | varValue ht _ ih =>
    exact fun around Γ => List.forall_mem_append.2 ⟨of_mem_findingIf ht.1, ih around _⟩
  | body _ hps _ ih =>
    have hps := ((List.forall₂_and_left ..).1 hps).1
    exact fun around Γ => List.forall_mem_append.2 ⟨Scope.introduceAll_findsAt hps _, ih around _⟩
  | @classDecl _ _ superclass _ fs fs' hn hr hlen hfs ih =>
    have hfs : List.Forall₂ (fun f f' => Node.FindsAt S (.function f) ∧
        FunctionMatches (.within S) f f') fs fs' :=
      List.forall₂_iff_zip.2 ⟨hlen, fun h => ⟨ih _ _ h, hfs _ _ h⟩⟩
    have hmethods := resolveMethods_findsAt ((List.forall₂_and_left ..).1 hfs).1
    refine fun around Γ => List.forall_mem_append.2 ⟨List.forall_mem_append.2
      ⟨of_mem_findingIf hn.1, ?_⟩, hmethods _ _⟩
    cases hr with
    | none => exact List.forall_mem_nil _
    | some hr =>
      exact List.forall_mem_append.2 ⟨of_mem_findingIf hr.name.1, of_mem_findingIf hr.name.1⟩

theorem from_of_findings {fs : List Finding} (h : ∀ f ∈ fs, S f.1) :
    ∀ r ∈ fs.map Finding.report, r.From S :=
  List.forall_mem_map.2 fun f hf => Report.from_atToken (h f hf) _

/-- A program of such tokens is resolved to one, and what is reported is at them. -/
theorem resolveProgram_within (h : Matches (.within S) (.stmts ss) (.stmts ss)) :
    Matches (.within S) (.stmts (resolveProgram ss).1) (.stmts (resolveProgram ss).1) ∧
      ∀ r ∈ (resolveProgram ss).2, r.From S :=
  ⟨h.resolveProgram.1, from_of_findings (h.findsAt .topLevel [])⟩

theorem resolveExpression_within (h : ExprMatches (.within S) e e) :
    ExprMatches (.within S) (resolveExpression e).1 (resolveExpression e).1 ∧
      ∀ r ∈ (resolveExpression e).2, r.From S :=
  ⟨(h.resolveAlike .topLevel []).1, from_of_findings (h.findsAt .topLevel [])⟩

/-! ## The call entered last -/

/-- The call that is blamed for an overflow, when a task fails by one. -/
def Control.blamed? : Control → Option (Option Token)
  | failing (.overflow call) => some call
  | _ => none

/-- The call that a machine has recorded as the one entered last, which is blamed for an overflow.
-/
structure Machine.Blames (last : Option Token) (m : Machine) : Prop where
  callToken : m.callToken = last
  overflow : m.control.blamed? = none ∨ m.control.blamed? = some last

/-- The closing parenthesis of a call whose parts are being evaluated. -/
def Waiting.paren? : Waiting → Option Token
  | callee paren _ | argument _ paren _ _ => some paren
  | _ => none

namespace Machine

section

variable {last : Option Token} {m : Machine} (hm : m.callToken = last) (s : Setting)
include hm

theorem blames_enter (w : Waiting) (i : Nat) {task : Control} (h : task.isDone = false) :
    (m.enter s w i task).Blames last := by
  unfold enter
  split
  · exact ⟨hm, .inr (congrArg some hm)⟩
  · refine ⟨hm, .inl ?_⟩
    cases task with
    | failing => cases h
    | _ => rfl

theorem blames_await (w : Waiting) {task : Control} (h : task.isDone = false) :
    (m.await s w task).Blames last := blames_enter hm s w m.frame h

theorem blames_read (r : Reference) : (m.read r).Blames last := by
  unfold read; split <;> split <;> exact ⟨hm, .inl rfl⟩

theorem blames_assign (r : Reference) (v : Value) : (m.assign r v).Blames last := by
  unfold assign; split <;> split <;> exact ⟨hm, .inl rfl⟩

theorem blames_add (left : Value) (operator : Token) (right : Value) :
    (m.add left operator right).Blames last := by
  unfold add; split <;> exact ⟨hm, .inl rfl⟩

theorem blames_binary (left : Value) (operator : Token) (right : Value) :
    (m.binary left operator right).Blames last := by
  unfold binary
  split
  · exact ⟨hm, .inl rfl⟩
  · exact ⟨hm, .inl rfl⟩
  · exact blames_add hm ..
  · split
    · split <;> exact ⟨hm, .inl rfl⟩
    · exact ⟨hm, .inl rfl⟩

theorem blames_unary (operator : Token) (v : Value) : (m.unary operator v).Blames last := by
  unfold unary
  split
  · exact ⟨hm, .inl rfl⟩
  · split <;> exact ⟨hm, .inl rfl⟩
  · exact ⟨hm, .inl rfl⟩

theorem blames_bindMethod (k : Nat) (receiver : Value) :
    (m.bindMethod k receiver).Blames last := by
  unfold bindMethod; split <;> exact ⟨hm, .inl rfl⟩

theorem blames_property (object : Nat) (name : Token) :
    (m.property object name).Blames last := by
  unfold property
  split
  · exact ⟨hm, .inl rfl⟩
  · split
    · exact ⟨hm, .inl rfl⟩
    · split
      · exact blames_bindMethod hm ..
      · exact ⟨hm, .inl rfl⟩

theorem blames_superMethod (keyword : Reference) (method : Token) :
    (m.superMethod keyword method).Blames last := by
  unfold superMethod
  split
  · exact ⟨hm, .inl rfl⟩
  · split
    · exact ⟨hm, .inl rfl⟩
    · exact ⟨hm, .inl rfl⟩
    · split
      · exact blames_bindMethod hm ..
      · exact ⟨hm, .inl rfl⟩
    · exact ⟨hm, .inl rfl⟩

theorem blames_declareClass (name : Token) (superclass : Option Nat) (methods : List Function) :
    (m.declareClass name superclass methods).Blames last := by
  unfold declareClass
  dsimp only
  split <;> exact ⟨hm, .inl rfl⟩

theorem blames_finishCall (caller : Nat) (result : CallResult) (v : Value) :
    (m.finishCall caller result v).Blames last := by
  cases result with
  | returned | created => exact ⟨hm, .inl rfl⟩
  | receiver frame =>
    simp only [finishCall]
    split <;> exact ⟨hm, .inl rfl⟩

theorem blames_invoke (c : Closure) (arguments : List Value) (result : CallResult) :
    (m.invoke s c arguments result).Blames last := by
  simp only [invoke]
  refine blames_enter ?_ s _ _ ?_
  · exact hm
  · rfl

theorem blames_instantiate (cls : Nat) (arguments : List Value) :
    (m.instantiate s cls arguments).Blames last := by
  unfold instantiate
  split
  · exact ⟨hm, .inl rfl⟩
  · split
    · exact ⟨hm, .inl rfl⟩
    · next c _ =>
      refine blames_invoke ?_ s ..
      exact hm

theorem blames_callValue (callee : Value) (arguments : List Value) :
    (m.callValue s callee arguments).Blames last := by
  unfold callValue
  split
  · exact ⟨hm, .inl rfl⟩
  · split
    · exact ⟨hm, .inl rfl⟩
    · exact blames_invoke hm s ..
  · exact blames_instantiate hm s ..
  · exact ⟨hm, .inl rfl⟩

/-- A call is the one entered last, if it is entered at all. -/
theorem blames_call (callee : Value) (paren : Token) (arguments : List Value) :
    ∃ new ∈ [last, some paren], (m.call s callee paren arguments).Blames new := by
  unfold call
  split
  · exact ⟨_, List.mem_cons_self, hm, .inl rfl⟩
  · split
    · refine ⟨some paren, by simp, blames_callValue ?_ s ..⟩
      rfl
    · exact ⟨_, List.mem_cons_self, hm, .inl rfl⟩

theorem blames_evaluateArguments (callee : Value) (paren : Token) (before : List Value)
    (es : List Expr) : ∃ new ∈ [last, some paren],
      (m.evaluateArguments s callee paren before es).Blames new := by
  cases es with
  | nil => exact blames_call hm s ..
  | cons e es => exact ⟨_, List.mem_cons_self, blames_await hm s _ rfl⟩

theorem blames_evaluate (e : Expr) : (m.evaluate s e).Blames last := by
  cases e with
  | missing | literal | grouping => exact ⟨hm, .inl rfl⟩
  | super keyword method => exact blames_superMethod hm ..
  | this keyword => exact blames_read hm ..
  | «variable» target => exact blames_read hm ..
  | _ => exact blames_await hm s _ rfl

theorem blames_execute (t : Stmt) : (m.execute s t).Blames last := by
  cases t with
  | missing | expression | function => exact ⟨hm, .inl rfl⟩
  | block body =>
    refine blames_enter ?_ s _ _ ?_
    · exact hm
    · rfl
  | classDecl name superclass methods =>
    cases superclass with
    | none =>
      simp only [execute]
      exact blames_declareClass hm ..
    | some parent => exact blames_await hm s _ rfl
  | returning keyword value =>
    cases value with
    | none => exact ⟨hm, .inl rfl⟩
    | some value => exact blames_await hm s _ rfl
  | varDecl name value =>
    cases value with
    | none => exact ⟨hm, .inl rfl⟩
    | some value => exact blames_await hm s _ rfl
  | _ => exact blames_await hm s _ rfl

theorem blames_runAll (ts : List Stmt) : (m.runAll s ts).Blames last := by
  cases ts with
  | nil => exact ⟨hm, .inl rfl⟩
  | cons t ts => exact blames_await hm s _ rfl

/-- A value that is not for a call enters none. -/
theorem blames_receive (v : Value) (w : Waiting) (hw : w.paren? = none) :
    (m.receive s v w).Blames last := by
  cases w with
  | callee | argument => cases hw
  | print | setValue | returnValue | define | branch | rest | leave => exact ⟨hm, .inl rfl⟩
  | assign => exact blames_assign hm ..
  | binaryRight | loopBody => exact blames_await hm s _ rfl
  | binary => exact blames_binary hm ..
  | unary => exact blames_unary hm ..
  | activation => exact blames_finishCall hm ..
  | get name =>
    cases v with
    | object i => exact blames_property hm ..
    | _ => exact ⟨hm, .inl rfl⟩
  | logical operator right =>
    simp only [receive]
    split <;> split <;> exact ⟨hm, .inl rfl⟩
  | setObject name value =>
    simp only [receive]
    split
    · exact blames_await hm s _ rfl
    · exact ⟨hm, .inl rfl⟩
  | loopTest condition body =>
    simp only [receive]
    split
    · exact blames_await hm s _ rfl
    · exact ⟨hm, .inl rfl⟩
  | superclass name parent methods =>
    cases v with
    | cls c =>
      simp only [receive]
      exact blames_declareClass hm ..
    | _ => exact ⟨hm, .inl rfl⟩

theorem exists_blames_receive (v : Value) (w : Waiting) :
    ∃ new ∈ [last, w.paren?], (m.receive s v w).Blames new := by
  cases hw : w.paren? with
  | none => exact ⟨last, List.mem_cons_self, blames_receive hm s v w hw⟩
  | some paren =>
    cases w with
    | callee =>
      cases hw
      exact blames_evaluateArguments hm s ..
    | argument =>
      cases hw
      exact blames_evaluateArguments hm s ..
    | _ => cases hw

end

/-- A step blames the call that was blamed before, or the one that it enters. -/
theorem Blames.step {m : Machine} (hm : m.Blames last) (s : Setting) :
    ∃ new ∈ last :: m.stack.items.map Waiting.paren?, (m.step s).Blames new := by
  have hsame {m' : Machine} (h : m'.Blames last) :
      ∃ new ∈ last :: m.stack.items.map Waiting.paren?, m'.Blames new :=
    ⟨last, List.mem_cons_self, h⟩
  have hlast := hm.callToken
  unfold Machine.step
  split
  · exact hsame (blames_evaluate hlast s _)
  · exact hsame (blames_execute hlast s _)
  · exact hsame (blames_runAll hlast s _)
  · split
    · next w rest hpop =>
      rw [Stack.items_of_pop? hpop, List.map_cons]
      obtain ⟨new, hnew, h⟩ :=
        exists_blames_receive (m := { m with stack := rest }) hlast s _ w
      rw [List.mem_cons, List.mem_singleton] at hnew
      exact ⟨new, by rcases hnew with rfl | rfl <;> simp, h⟩
    · exact hsame hm
  · next v hv =>
    split
    · next w rest hpop =>
      cases w with
      | activation => exact hsame (blames_finishCall (m := { m with stack := rest }) hlast ..)
      | _ => exact hsame ⟨hlast, .inl (congrArg Control.blamed? hv)⟩
    · exact hsame ⟨hlast, .inl rfl⟩
  · split
    · next w rest hpop => cases w <;> exact hsame ⟨hlast, hm.overflow⟩
    · exact hsame hm

end Machine

/-! ## Runs -/

/-- A failure that is blamed on tokens of some kind. -/
def Failure.At (S : Token → Prop) : Failure → Prop
  | error t _ => S t
  | overflow call => ∀ t ∈ call, S t
  | fault _ => True

/-- All tokens that a machine holds are of some kind: with nothing more to run beneath what waits,
it is abreast of itself. The call that it blames is not told by that, since it may be another's. -/
structure Machine.TokensIn (S : Token → Prop) (m : Machine) : Prop where
  inside : Inside (.within S) [] #[] (m.within [.rest []]) (m.within [.rest []])
  blames : ∃ last, m.Blames last ∧ ∀ t ∈ last, S t

theorem StackMatches.parens (h : StackMatches (.within S) more items items') :
    ∀ w ∈ items, ∀ t ∈ w.paren?, S t := by
  induction h with
  | bottom => exact List.forall_mem_singleton.2 fun t ht => absurd ht (Option.not_mem_none t)
  | push hw _ ih =>
    refine List.forall_mem_cons.2 ⟨?_, ih⟩
    cases hw with
    | callee ht | argument ht =>
      rintro _ ⟨⟩
      exact ht.1
    | _ => exact fun t ht => absurd ht (Option.not_mem_none t)

theorem Onward.inside_of_waiting (h : Onward P more out m m') (hm : m.stack.items ≠ []) :
    Inside P more out m m' := by
  cases h with
  | inside h => exact h
  | between hs | returning hs | failing hs => exact absurd hs.empty hm

namespace Machine.TokensIn

variable {m : Machine}

theorem parens (h : m.TokensIn S) : ∀ w ∈ m.stack.items, ∀ t ∈ w.paren?, S t :=
  fun w hw => h.inside.stack.parens w (List.mem_append_left _ hw)

theorem failing (h : m.TokensIn S) (hm : m.control = .failing f) : f.At S := by
  have hmatches := h.inside.control
  obtain ⟨last, ⟨-, hover⟩, hlast⟩ := h.blames
  change m.control.Matches (.within S) m.control at hmatches
  rw [hm] at hmatches hover
  cases hmatches with
  | failing hf =>
    cases f with
    | error t e =>
      cases hf with
      | error ht => exact ht.1
    | overflow call =>
      rcases hover with h | h
      · cases h
      · exact Option.some.inj h ▸ hlast
    | fault => trivial

theorem step (h : m.TokensIn S) (s : Setting) : (m.step s).TokensIn S where
  inside := by
    cases ho : m.isOver 0 with
    | false =>
      have hstep := h.inside.step (s.deeper 1)
      rw [show s.deeper 1 = s.deeper [Waiting.rest []].length from rfl, within_step ho] at hstep
      exact hstep.inside_of_waiting (by simp [within, Stack.within])
    | true =>
      obtain ⟨hsize, hdone⟩ := isOver_iff.1 ho
      have hnone : m.stack.pop? = none :=
        Stack.pop?_eq_none (List.eq_nil_of_length_eq_zero (m.stack.size_eq.trans hsize))
      cases hc : m.control with
      | returning v =>
        simp only [Machine.step, hc, hnone]
        exact h.inside.fault .strayReturn
      | value | failing =>
        simp only [Machine.step, hc, hnone]
        exact h.inside
      | eval | exec | run => rw [hc] at hdone; cases hdone
  blames := by
    obtain ⟨last, hblames, hlast⟩ := h.blames
    obtain ⟨new, hnew, hstep⟩ := hblames.step s
    refine ⟨new, hstep, ?_⟩
    rcases List.mem_cons.1 hnew with rfl | hnew
    · exact hlast
    · obtain ⟨w, hw, rfl⟩ := List.mem_map.1 hnew
      exact h.parens w hw

theorem run (h : m.TokensIn S) (s : Setting) (n : Nat) : (m.run s n).TokensIn S := by
  induction n generalizing m with
  | zero => exact h
  | succ n ih =>
    rw [run_succ]
    exact ih (h.step s)

end Machine.TokensIn

/-- All tokens of the functions in a memory are of some kind, also that of the call entered last. -/
structure Memory.TokensIn (S : Token → Prop) (mem : Memory) : Prop where
  heap : mem.heap.Matches (.within S) mem.heap
  callToken : ∀ t ∈ mem.callToken, S t

theorem Memory.TokensIn.initial : Memory.initial.TokensIn S where
  heap := Heap.matches_self fun _ ⟨c, hc, _⟩ => absurd hc (Array.not_mem_empty c)
  callToken t ht := absurd ht (Option.not_mem_none t)

/-- A task of such tokens makes no others, and fails at none. -/
theorem Memory.TokensIn.perform {mem : Memory} (h : mem.TokensIn S) {task : Control}
    (ht : task.Matches (.within S) task) (hd : task.blamed? = none) (s : Setting) (n : Nat) :
    (mem.perform s n task).memory.TokensIn S ∧
      ∀ f, (mem.perform s n task).ending = .failed f → f.At S := by
  have hstart : (mem.start task).TokensIn S :=
    { inside :=
        { heap := h.heap
          stack := .bottom .noStmts
          frame := rfl
          printed := Array.empty_append.symm
          control := ht }
      blames := ⟨_, ⟨rfl, .inl hd⟩, h.callToken⟩ }
  have hrun := hstart.run s n
  exact ⟨⟨hrun.inside.heap, fun t ht => absurd ht (Option.not_mem_none t)⟩,
    fun f hf => hrun.failing (Machine.failing_of_ending hf).2⟩

end LoxLang
