import LoxLang.Token
import LoxLang.Tree

/-!
# Derivations

The grammar of Lox as a relation between trees and the tokens they are written with (`Derives`). A
derivation has a bound on how deeply its expressions, unary operands, declarations and statements
are nested in each other; nothing else in it depends on how a tree is read.

    program     ::= declaration*
    declaration ::= "class" IDENTIFIER ("<" IDENTIFIER)? "{" function* "}"
                  | "fun" function | "var" varDecl | statement
    function    ::= IDENTIFIER "(" (IDENTIFIER ("," IDENTIFIER)*)? ")" "{" declaration* "}"
    varDecl     ::= IDENTIFIER ("=" expression)? ";"
    statement   ::= expression ";" | "for" "(" initializer expression? ";" expression? ")" statement
                  | "if" "(" expression ")" statement ("else" statement)?
                  | "print" expression ";" | "return" expression? ";"
                  | "while" "(" expression ")" statement | "{" declaration* "}"
    initializer ::= "var" varDecl | expression ";" | ";"
    expression  ::= (call ".")? IDENTIFIER "=" expression | or
    or          ::= and ("or" and)*, and so on down to factor ::= unary (("/" | "*") unary)*
    unary       ::= ("!" | "-") unary | call
    call        ::= primary ("(" (expression ("," expression)*)? ")" | "." IDENTIFIER)*
    primary     ::= constant | "this" | IDENTIFIER | "(" expression ")" | "super" "." IDENTIFIER
-/

namespace LoxLang.Grammar

/-- The levels of binary operators, loosest first. -/
inductive Level where
  | or | and | equality | comparison | term | factor

/-- What the grammar derives, with its tree. -/
inductive Nonterminal where
  | program (body : List Stmt)
  | declaration (s : Stmt)
  | function (f : Function)
  | varDecl (s : Stmt)
  /-- A statement dangles when an `else` behind it would belong to an `if` in it. -/
  | statement (dangling : Bool) (s : Stmt)
  | expressionStatement (s : Stmt)
  | initializer (s : Option Stmt)
  | optional (e : Option Expr)
  | expression (e : Expr)
  | level (l : Level) (e : Expr)
  | unary (e : Expr)
  | call (e : Expr)
  | primary (e : Expr)

namespace Level

def operators : Level → List TokenKind
  | or => [.kwOr]
  | and => [.kwAnd]
  | equality => [.bangEqual, .equalEqual]
  | comparison => [.greater, .greaterEqual, .less, .lessEqual]
  | term => [.minus, .plus]
  | factor => [.slash, .star]

/-- The tree of an operator between its operands. -/
def node : Level → Expr → Token → Expr → Expr
  | or, left, operator, right | and, left, operator, right => .logical left operator right
  | _, left, operator, right => .binary left operator right

/-- What stands between the operators of a level. -/
def operand : Level → Expr → Nonterminal
  | or => .level and
  | and => .level equality
  | equality => .level comparison
  | comparison => .level term
  | term => .level factor
  | factor => .unary

end Level

/-- Trees in a row, each with the tokens it is written with. -/
abbrev Row (α : Type) := List (α × List Token)

namespace Row

variable {α : Type}

def trees (ps : Row α) : List α := ps.map Prod.fst

/-- The tokens of a row whose trees stand one behind the other. -/
def tokens (ps : Row α) : List Token := ps.flatMap Prod.snd

/-- The tokens of a row with a comma in front of each tree. -/
inductive Further : Row α → List Token → Prop
  | nil : Further [] []
  | cons : comma.kind = .comma → Further ps us → Further ((a, ts) :: ps) (comma :: (ts ++ us))

/-- The tokens of a row with commas between the trees. -/
inductive Commas : Row α → List Token → Prop
  | nil : Commas [] []
  | cons : Further ps us → Commas ((a, ts) :: ps) (ts ++ us)

end Row

/-- A token that stands for a constant. -/
inductive Denotes : Token → Constant → Prop
  | false : t.kind = .kwFalse → Denotes t (.bool false)
  | true : t.kind = .kwTrue → Denotes t (.bool true)
  | nil : t.kind = .kwNil → Denotes t .nil
  | literal : t.kind = .number ∨ t.kind = .string → Denotes t (t.literal.getD .nil)

/-- The superclass of a class and the tokens it is named with. -/
inductive Superclass : Option Reference → List Token → Prop
  | none : Superclass none []
  | some : less.kind = .less → name.kind = .identifier → Superclass (some ⟨name, none⟩) [less, name]

/-- A statement behind another one, in a scope of their own. -/
def behind : Option Stmt → Stmt → Stmt
  | none, s => s
  | some first, s => .block [first, s]

/-- A statement with an expression behind it. -/
def followed (s : Stmt) : Option Expr → Stmt
  | none => s
  | some e => .block [s, .expression e]

/-- The nonterminal, with its tree, derives the tokens, nested at most so deeply. -/
inductive Derives : Nat → Nonterminal → List Token → Prop
  | program {ds : Row Stmt} : (∀ d ∈ ds, Derives n (.declaration d.1) d.2) →
    Derives n (.program ds.trees) ds.tokens
  | classDecl {ms : Row Function} : keyword.kind = .kwClass → name.kind = .identifier →
    Superclass superclass us → lb.kind = .leftBrace → (∀ m ∈ ms, Derives n (.function m.1) m.2) →
    rb.kind = .rightBrace →
    Derives (n + 1) (.declaration (.classDecl name superclass ms.trees))
      (keyword :: name :: (us ++ lb :: (ms.tokens ++ [rb])))
  | funDecl : keyword.kind = .kwFun → Derives n (.function f) ts →
    Derives (n + 1) (.declaration (.function f)) (keyword :: ts)
  | varDeclaration : keyword.kind = .kwVar → Derives n (.varDecl s) ts →
    Derives (n + 1) (.declaration s) (keyword :: ts)
  | statement : Derives n (.statement dangling s) ts → Derives (n + 1) (.declaration s) ts
  | function {ps : Row Token} {ds : Row Stmt} : name.kind = .identifier → lpar.kind = .leftParen →
    (∀ p ∈ ps, p.1.kind = .identifier ∧ p.2 = [p.1]) → ps.Commas us → ps.length ≤ 255 →
    rpar.kind = .rightParen → lb.kind = .leftBrace → (∀ d ∈ ds, Derives n (.declaration d.1) d.2) →
    rb.kind = .rightBrace →
    Derives n (.function (.mk name ps.trees ds.trees))
      (name :: lpar :: (us ++ rpar :: lb :: (ds.tokens ++ [rb])))
  | varDecl : name.kind = .identifier → semicolon.kind = .semicolon →
    Derives n (.varDecl (.varDecl name none)) [name, semicolon]
  | varInitializer : name.kind = .identifier → equal.kind = .equal → Derives n (.expression e) ts →
    semicolon.kind = .semicolon →
    Derives n (.varDecl (.varDecl name (some e))) (name :: equal :: (ts ++ [semicolon]))
  | plain : Derives n (.expressionStatement s) ts → Derives (n + 1) (.statement false s) ts
  | forLoop : keyword.kind = .kwFor → lpar.kind = .leftParen → Derives n (.initializer i) us →
    Derives n (.optional c) vs → semicolon.kind = .semicolon → Derives n (.optional e) ws →
    rpar.kind = .rightParen → Derives n (.statement dangling s) ts →
    Derives (n + 1)
      (.statement dangling
        (behind i (.whileLoop (c.getD (.literal (.bool true))) (followed s e))))
      (keyword :: lpar :: (us ++ (vs ++ semicolon :: (ws ++ rpar :: ts))))
  | ifThen : keyword.kind = .kwIf → lpar.kind = .leftParen → Derives n (.expression c) us →
    rpar.kind = .rightParen → Derives n (.statement dangling s) ts →
    Derives (n + 1) (.statement true (.ifElse c s .missing)) (keyword :: lpar :: (us ++ rpar :: ts))
  | ifElse : keyword.kind = .kwIf → lpar.kind = .leftParen → Derives n (.expression c) us →
    rpar.kind = .rightParen → Derives n (.statement false s) ts → «else».kind = .kwElse →
    Derives n (.statement dangling t) vs →
    Derives (n + 1) (.statement dangling (.ifElse c s t))
      (keyword :: lpar :: (us ++ rpar :: (ts ++ «else» :: vs)))
  | print : keyword.kind = .kwPrint → Derives n (.expression e) ts →
    semicolon.kind = .semicolon →
    Derives (n + 1) (.statement false (.print e)) (keyword :: (ts ++ [semicolon]))
  | returning : keyword.kind = .kwReturn → Derives n (.optional e) ts →
    semicolon.kind = .semicolon →
    Derives (n + 1) (.statement false (.returning keyword e)) (keyword :: (ts ++ [semicolon]))
  | whileLoop : keyword.kind = .kwWhile → lpar.kind = .leftParen → Derives n (.expression c) us →
    rpar.kind = .rightParen → Derives n (.statement dangling s) ts →
    Derives (n + 1) (.statement dangling (.whileLoop c s)) (keyword :: lpar :: (us ++ rpar :: ts))
  | block {ds : Row Stmt} : lb.kind = .leftBrace → (∀ d ∈ ds, Derives n (.declaration d.1) d.2) →
    rb.kind = .rightBrace →
    Derives (n + 1) (.statement false (.block ds.trees)) (lb :: (ds.tokens ++ [rb]))
  | expressionStatement : Derives n (.expression e) ts → semicolon.kind = .semicolon →
    Derives n (.expressionStatement (.expression e)) (ts ++ [semicolon])
  | noInitializer : semicolon.kind = .semicolon → Derives n (.initializer none) [semicolon]
  | declared : keyword.kind = .kwVar → Derives n (.varDecl s) ts →
    Derives n (.initializer (some s)) (keyword :: ts)
  | evaluated : Derives n (.expressionStatement s) ts → Derives n (.initializer (some s)) ts
  | absent : Derives n (.optional none) []
  | present : Derives n (.expression e) ts → Derives n (.optional (some e)) ts
  | assign : name.kind = .identifier → equal.kind = .equal → Derives (n + 1) (.expression v) ts →
    Derives (n + 2) (.expression (.assign ⟨name, none⟩ v)) (name :: equal :: ts)
  | set : Derives n (.call o) ts → dot.kind = .dot → name.kind = .identifier →
    equal.kind = .equal → Derives (n + 1) (.expression v) us →
    Derives (n + 2) (.expression (.set o name v)) (ts ++ dot :: name :: equal :: us)
  | expression : Derives n (.level .or e) ts → Derives (n + 1) (.expression e) ts
  | operand : Derives n (l.operand e) ts → Derives n (.level l e) ts
  | operator : Derives n (.level l left) ts → op.kind ∈ l.operators →
    Derives n (l.operand right) us →
    Derives n (.level l (l.node left op right)) (ts ++ op :: us)
  | unary : op.kind ∈ [TokenKind.bang, .minus] → Derives n (.unary e) ts →
    Derives (n + 1) (.unary (.unary op e)) (op :: ts)
  | called : Derives n (.call e) ts → Derives (n + 1) (.unary e) ts
  | primary : Derives n (.primary e) ts → Derives n (.call e) ts
  | call {as : Row Expr} : Derives n (.call f) ts → lpar.kind = .leftParen →
    (∀ a ∈ as, Derives n (.expression a.1) a.2) → as.Commas us → as.length ≤ 255 →
    rpar.kind = .rightParen →
    Derives n (.call (.call f rpar as.trees)) (ts ++ lpar :: (us ++ [rpar]))
  | get : Derives n (.call o) ts → dot.kind = .dot → name.kind = .identifier →
    Derives n (.call (.get o name)) (ts ++ [dot, name])
  | constant : Denotes t c → Derives n (.primary (.literal c)) [t]
  | this : keyword.kind = .kwThis → Derives n (.primary (.this ⟨keyword, none⟩)) [keyword]
  | named : name.kind = .identifier → Derives n (.primary (.variable ⟨name, none⟩)) [name]
  | grouping : lpar.kind = .leftParen → Derives n (.expression e) ts → rpar.kind = .rightParen →
    Derives n (.primary (.grouping e)) (lpar :: (ts ++ [rpar]))
  | super : keyword.kind = .kwSuper → dot.kind = .dot → name.kind = .identifier →
    Derives n (.primary (.super ⟨keyword, none⟩ name)) [keyword, dot, name]

namespace Row

variable {α : Type} {P : Token → Prop}

theorem forall_tokens {ps : Row α} (h : ∀ p ∈ ps, ∀ t ∈ p.2, P t) : ∀ t ∈ ps.tokens, P t := by
  intro t ht
  obtain ⟨p, hp, ht⟩ := List.mem_flatMap.1 ht
  exact h p hp t ht

theorem Further.forall_tokens {ps : Row α} (hcomma : ∀ t : Token, t.kind = .comma → P t)
    (h : ∀ p ∈ ps, ∀ t ∈ p.2, P t) (hps : ps.Further us) : ∀ t ∈ us, P t := by
  induction hps with
  | nil => nofun
  | cons hk _ ih =>
    obtain ⟨hfirst, hrest⟩ := List.forall_mem_cons.1 h
    exact List.forall_mem_cons.2 ⟨hcomma _ hk, List.forall_mem_append.2 ⟨hfirst, ih hrest⟩⟩

theorem Commas.forall_tokens {ps : Row α} (hcomma : ∀ t : Token, t.kind = .comma → P t)
    (h : ∀ p ∈ ps, ∀ t ∈ p.2, P t) (hps : ps.Commas us) : ∀ t ∈ us, P t := by
  cases hps with
  | nil => nofun
  | cons hps =>
    obtain ⟨hfirst, hrest⟩ := List.forall_mem_cons.1 h
    exact List.forall_mem_append.2 ⟨hfirst, hps.forall_tokens hcomma hrest⟩

end Row

namespace Derives

theorem succ (h : Derives n x ts) : Derives (n + 1) x ts := by
  induction h with
  | program _ ih => exact .program ih
  | classDecl hk hn hs hl _ hr ih => exact .classDecl hk hn hs hl ih hr
  | funDecl hk _ ih => exact .funDecl hk ih
  | varDeclaration hk _ ih => exact .varDeclaration hk ih
  | statement _ ih => exact .statement ih
  | function hn hl hps hc hle hr hb _ he ih => exact .function hn hl hps hc hle hr hb ih he
  | varDecl hn hs => exact .varDecl hn hs
  | varInitializer hn he _ hs ih => exact .varInitializer hn he ih hs
  | plain _ ih => exact .plain ih
  | forLoop hk hl _ _ hs _ hr _ hi hc he ih => exact .forLoop hk hl hi hc hs he hr ih
  | ifThen hk hl _ hr _ hc ih => exact .ifThen hk hl hc hr ih
  | ifElse hk hl _ hr _ he _ hc hs ht => exact .ifElse hk hl hc hr hs he ht
  | print hk _ hs ih => exact .print hk ih hs
  | returning hk _ hs ih => exact .returning hk ih hs
  | whileLoop hk hl _ hr _ hc ih => exact .whileLoop hk hl hc hr ih
  | block hl _ hr ih => exact .block hl ih hr
  | expressionStatement _ hs ih => exact .expressionStatement ih hs
  | noInitializer hs => exact .noInitializer hs
  | declared hk _ ih => exact .declared hk ih
  | evaluated _ ih => exact .evaluated ih
  | absent => exact .absent
  | present _ ih => exact .present ih
  | assign hn he _ ih => exact .assign hn he ih
  | set _ hd hn he _ ho hv => exact .set ho hd hn he hv
  | expression _ ih => exact .expression ih
  | operand _ ih => exact .operand ih
  | operator _ hop _ hl hr => exact .operator hl hop hr
  | unary hop _ ih => exact .unary hop ih
  | called _ ih => exact .called ih
  | primary _ ih => exact .primary ih
  | call _ hl _ hc hle hr hf ha => exact .call hf hl ha hc hle hr
  | get _ hd hn ih => exact .get ih hd hn
  | constant h => exact .constant h
  | this hk => exact .this hk
  | named hn => exact .named hn
  | grouping hl _ hr ih => exact .grouping hl ih hr
  | super hk hd hn => exact .super hk hd hn

theorem mono (h : Derives n x ts) (hle : n ≤ m) : Derives m x ts := by
  induction hle with
  | refl => exact h
  | step _ ih => exact ih.succ

/-- An operand is an expression by itself. -/
theorem expression_of_unary (h : Derives n (.unary e) ts) :
    Derives (n + 1) (.expression e) ts := by
  have hfactor : Derives n (.level .factor e) ts := .operand h
  have hterm : Derives n (.level .term e) ts := .operand hfactor
  have hcomparison : Derives n (.level .comparison e) ts := .operand hterm
  have hequality : Derives n (.level .equality e) ts := .operand hcomparison
  have hand : Derives n (.level .and e) ts := .operand hequality
  exact .expression (.operand hand)

/-- The end of a text is no part of it. -/
theorem kind_ne_eof (h : Derives n x ts) : ∀ t ∈ ts, t.kind ≠ .eof := by
  have hcomma (t : Token) (ht : t.kind = .comma) : t.kind ≠ .eof := by simp [ht]
  induction h with
  | program _ ih => exact Row.forall_tokens ih
  | classDecl _ _ hs _ _ _ ih =>
    have hmethods := Row.forall_tokens ih
    cases hs <;> simp_all [or_imp]
  | function _ _ hps hc _ _ _ _ _ ih =>
    have hbody := Row.forall_tokens ih
    have hparameters := hc.forall_tokens hcomma fun p hp t ht => by
      obtain ⟨hk, hs⟩ := hps p hp
      simp_all
    simp_all [or_imp]
  | block _ _ _ ih =>
    have hbody := Row.forall_tokens ih
    simp_all [or_imp]
  | call _ _ _ hc _ _ _ ih =>
    have has := hc.forall_tokens hcomma ih
    simp_all [or_imp]
  | unary hop =>
    have := (by decide : ∀ k ∈ [TokenKind.bang, .minus], k ≠ .eof) _ hop
    simp_all
  | @operator _ l _ _ _ _ _ _ hop =>
    have := (by cases l <;> decide : ∀ k ∈ l.operators, k ≠ .eof) _ hop
    simp_all [or_imp]
  | constant h =>
    cases h with
    | literal h => rcases h with h | h <;> simp_all
    | _ => simp_all
  | _ => simp_all [or_imp]

end Derives

/-- The kinds that an operand without operators begins with. -/
def operandStarts : List TokenKind :=
  [.kwFalse, .kwTrue, .kwNil, .number, .string, .kwThis, .identifier, .leftParen, .kwSuper]

def expressionStarts : List TokenKind := .bang :: .minus :: operandStarts

def statementStarts : List TokenKind :=
  [.kwFor, .kwIf, .kwPrint, .kwReturn, .kwWhile, .leftBrace] ++ expressionStarts

def declarationStarts : List TokenKind := [.kwClass, .kwFun, .kwVar] ++ statementStarts

/-- The kinds that what is derived begins with, where it has at least one token. -/
def Nonterminal.starts? : Nonterminal → Option (List TokenKind)
  | program _ | optional _ => none
  | declaration _ => some declarationStarts
  | function _ | varDecl _ => some [.identifier]
  | statement _ _ => some statementStarts
  | initializer _ => some ([.semicolon, .kwVar] ++ expressionStarts)
  | expressionStatement _ | expression _ | level _ _ | unary _ => some expressionStarts
  | call _ | primary _ => some operandStarts

/-- The tokens begin with one of the kinds. -/
def Begins (kinds : List TokenKind) (ts : List Token) : Prop :=
  ∃ t us, ts = t :: us ∧ t.kind ∈ kinds

theorem Begins.cons (h : t.kind ∈ kinds) : Begins kinds (t :: ts) := ⟨t, ts, rfl, h⟩

theorem Begins.append (h : Begins kinds ts) : Begins kinds (ts ++ us) := by
  obtain ⟨t, ts, rfl, ht⟩ := h
  exact ⟨t, ts ++ us, rfl, ht⟩

theorem Begins.mono (h : Begins kinds ts) (hk : kinds ⊆ others) : Begins others ts := by
  obtain ⟨t, ts, rfl, ht⟩ := h
  exact ⟨t, ts, rfl, hk ht⟩

theorem Denotes.kind_mem (h : Denotes t c) : t.kind ∈ operandStarts := by
  cases h with
  | literal h => rcases h with h | h <;> simp [h, operandStarts]
  | false h | true h | nil h => simp [h, operandStarts]

theorem Level.starts?_operand (l : Level) (e : Expr) :
    (l.operand e).starts? = some expressionStarts := by
  cases l <;> rfl

theorem Derives.begins (h : Derives n x ts) : ∀ kinds ∈ x.starts?, Begins kinds ts := by
  induction h with
  | program | absent | present => nofun
  | classDecl hk | funDecl hk | varDeclaration hk | function hk | varDecl hk | varInitializer hk
  | forLoop hk | ifThen hk | ifElse hk | print hk | returning hk | whileLoop hk | block hk
  | noInitializer hk | declared hk | this hk | named hk | grouping hk | super hk | assign hk =>
    rintro _ ⟨⟩
    exact .cons (by rw [hk]; decide)
  | unary hop =>
    rintro _ ⟨⟩
    exact .cons ((by decide : [TokenKind.bang, .minus] ⊆ expressionStarts) hop)
  | constant h =>
    rintro _ ⟨⟩
    exact .cons h.kind_mem
  | statement _ ih | plain _ ih | evaluated _ ih | called _ ih | expression _ ih =>
    rintro _ ⟨⟩
    exact (ih _ rfl).mono (by decide)
  | primary _ ih =>
    rintro _ ⟨⟩
    exact ih _ rfl
  | operand _ ih =>
    rintro _ ⟨⟩
    exact ih _ (Level.starts?_operand ..)
  | expressionStatement _ _ ih | operator _ _ _ ih | call _ _ _ _ _ _ ih | get _ _ _ ih =>
    rintro _ ⟨⟩
    exact (ih _ rfl).append
  | set _ _ _ _ _ ih =>
    rintro _ ⟨⟩
    exact (ih _ rfl).append.mono (by decide)

end LoxLang.Grammar
