/-!
# The words of Lox

A `Token` is a lexeme with its kind, the constant it denotes when it is a literal, and the place of
its first character. The keywords are the identifiers listed in `TokenKind.ofWord`; no other
identifier has a kind of its own.
-/

namespace LoxLang

inductive TokenKind where
  | leftParen | rightParen | leftBrace | rightBrace | comma | dot | minus | plus | semicolon
  | slash | star
  | bang | bangEqual | equal | equalEqual | greater | greaterEqual | less | lessEqual
  | identifier | string | number
  | kwAnd | kwClass | kwElse | kwFalse | kwFun | kwFor | kwIf | kwNil | kwOr | kwPrint | kwReturn
  | kwSuper | kwThis | kwTrue | kwVar | kwWhile
  | eof
deriving DecidableEq, Inhabited

namespace TokenKind

/-- The name a kind goes by when a token is written out. -/
def name : TokenKind → String
  | leftParen => "LEFT_PAREN" | rightParen => "RIGHT_PAREN"
  | leftBrace => "LEFT_BRACE" | rightBrace => "RIGHT_BRACE"
  | comma => "COMMA" | dot => "DOT" | minus => "MINUS" | plus => "PLUS"
  | semicolon => "SEMICOLON" | slash => "SLASH" | star => "STAR"
  | bang => "BANG" | bangEqual => "BANG_EQUAL"
  | equal => "EQUAL" | equalEqual => "EQUAL_EQUAL"
  | greater => "GREATER" | greaterEqual => "GREATER_EQUAL"
  | less => "LESS" | lessEqual => "LESS_EQUAL"
  | identifier => "IDENTIFIER" | string => "STRING" | number => "NUMBER"
  | kwAnd => "AND" | kwClass => "CLASS" | kwElse => "ELSE" | kwFalse => "FALSE" | kwFun => "FUN"
  | kwFor => "FOR" | kwIf => "IF" | kwNil => "NIL" | kwOr => "OR" | kwPrint => "PRINT"
  | kwReturn => "RETURN" | kwSuper => "SUPER" | kwThis => "THIS" | kwTrue => "TRUE"
  | kwVar => "VAR" | kwWhile => "WHILE" | eof => "EOF"

/-- Every kind, in the order of the declaration. -/
def all : List TokenKind :=
  [leftParen, rightParen, leftBrace, rightBrace, comma, dot, minus, plus, semicolon, slash, star,
   bang, bangEqual, equal, equalEqual, greater, greaterEqual, less, lessEqual,
   identifier, string, number,
   kwAnd, kwClass, kwElse, kwFalse, kwFun, kwFor, kwIf, kwNil, kwOr, kwPrint, kwReturn,
   kwSuper, kwThis, kwTrue, kwVar, kwWhile, eof]

/-- The kind that goes by a name. -/
def ofName? (name : String) : Option TokenKind :=
  all.find? (·.name == name)

/-- The kind of a word: a keyword's own kind, and otherwise an identifier. -/
def ofWord (word : String) : TokenKind :=
  match word with
  | "and" => kwAnd
  | "class" => kwClass
  | "else" => kwElse
  | "false" => kwFalse
  | "for" => kwFor
  | "fun" => kwFun
  | "if" => kwIf
  | "nil" => kwNil
  | "or" => kwOr
  | "print" => kwPrint
  | "return" => kwReturn
  | "super" => kwSuper
  | "this" => kwThis
  | "true" => kwTrue
  | "var" => kwVar
  | "while" => kwWhile
  | _ => identifier

/-- The kinds that probably begin a new statement, where reading resumes after an error. -/
def startsStatement : TokenKind → Bool
  | kwClass | kwFun | kwVar | kwFor | kwIf | kwWhile | kwPrint | kwReturn => true
  | _ => false

end TokenKind

/-- What a literal stands for. -/
inductive Constant where
  | nil
  | bool (b : Bool)
  | number (x : Float)
  | string (s : String)
deriving DecidableEq, Inhabited

/-- Lines and columns count from 1; a column counts characters, and a carriage return is one. -/
structure Token where
  kind : TokenKind
  lexeme : String
  literal : Option Constant
  line : Nat
  column : Nat
deriving DecidableEq, Inhabited

end LoxLang
