import Stepwise.Span

/-!
# Tokens

A token is a lexeme with its kind and its place in the text.

The kind is decided by the lexeme alone, and two kinds are decided in a way that is easy to get
wrong. The words `while` and `end-while` are identifiers, so whoever reads statements has to
recognise them by their text. And `=` is not a relation although it compares in a condition.

Tokens can also be made by hand, with any kind beside any lexeme. The functions on token lists
are defined for those too.
-/

namespace Stepwise

namespace Token

/-- What sort of lexeme a token has. -/
inductive Kind where
  | keyword
  | identifier
  | number
  | arithmetic
  | relation
  | logic
  | paren
  | comma
  | string
  | terminator
  | assign
  | unknown
deriving DecidableEq

namespace Kind

/-- The name of a kind in listings and messages. -/
def name : Kind → String
  | keyword => "KEYWORD"
  | identifier => "IDENTIFIER"
  | number => "NUMBER"
  | arithmetic => "OPERATOR"
  | relation => "REL_OPERATOR"
  | logic => "LOGIC_OPERATOR"
  | paren => "PAREN"
  | comma => "COMMA"
  | string => "STRING"
  | terminator => "END_LINE"
  | assign => "ASSIGN"
  | unknown => "UNKNOWN"

/-- All kinds. -/
def all : List Kind :=
  [keyword, identifier, number, arithmetic, relation, logic, paren, comma, string, terminator,
    assign, unknown]

theorem mem_all (k : Kind) : k ∈ all := by cases k <;> decide

/-- The kind with a name. -/
def ofName? (s : String) : Option Kind := all.find? fun k => k.name == s

@[simp] theorem ofName?_name (k : Kind) : ofName? k.name = some k := by cases k <;> decide

end Kind

/-- The words that begin or end a statement other than a loop. -/
def keywords : List String := ["if", "then", "end-if", "write", "capture"]

/-- The words that join or negate conditions. -/
def logicWords : List String := ["and", "or", "not"]

/-- The relations other than `=`. -/
def relations : List String := ["<", ">", "<=", ">=", "<>"]

/-- The arithmetic operators. -/
def arithmeticSigns : List String := ["+", "-", "*", "/"]

/-- A letter or underscore, with which a word begins. -/
def isWordStart (c : Char) : Bool := c.isAlpha || c == '_'

/-- A letter, digit or underscore, with which a word goes on. -/
def isWordPart (c : Char) : Bool := c.isAlphanum || c == '_'

/-- Whether a lexeme is a text between two quotes, without a quote in it. -/
def isQuoted : List Char → Bool
  | '"' :: cs => cs.getLast? == some '"' && !cs.dropLast.contains '"'
  | _ => false

/-- Whether a lexeme is a run of digits, possibly followed by a point and another run. -/
def isNumeral (cs : List Char) : Bool :=
  let isRun (run : List Char) := !run.isEmpty && run.all Char.isDigit
  match cs.dropWhile (· != '.') with
  | [] => isRun cs
  | _ :: fraction => isRun (cs.takeWhile (· != '.')) && isRun fraction

/-- Whether a lexeme is a word: letters, digits and underscores that do not begin with a digit,
or one of the two words with a hyphen. -/
def isWordLexeme (lexeme : String) : Bool :=
  lexeme == "end-if" || lexeme == "end-while" ||
    match lexeme.toList with
    | [] => false
    | c :: cs => isWordStart c && cs.all isWordPart

/-- The kind of a lexeme. -/
def Kind.ofLexeme (lexeme : String) : Kind :=
  if lexeme = "::" then .terminator
  else if isQuoted lexeme.toList then .string
  else if isNumeral lexeme.toList then .number
  else if lexeme = "," then .comma
  else if lexeme = "(" ∨ lexeme = ")" then .paren
  else if lexeme ∈ logicWords then .logic
  else if lexeme = "=" then .assign
  else if lexeme ∈ relations then .relation
  else if lexeme ∈ arithmeticSigns then .arithmetic
  else if lexeme ∈ keywords then .keyword
  else if isWordLexeme lexeme then .identifier
  else .unknown

end Token

/-- A lexeme with its kind and its place in the text. -/
structure Token where
  kind : Token.Kind
  lexeme : String
  span : Span
deriving DecidableEq

namespace Token

/-- The token of a lexeme at a place. -/
def ofLexeme (lexeme : String) (span : Span) : Token := ⟨.ofLexeme lexeme, lexeme, span⟩

@[simp] theorem kind_ofLexeme (lexeme : String) (span : Span) :
    (ofLexeme lexeme span).kind = .ofLexeme lexeme := rfl

@[simp] theorem lexeme_ofLexeme (lexeme : String) (span : Span) :
    (ofLexeme lexeme span).lexeme = lexeme := rfl

@[simp] theorem span_ofLexeme (lexeme : String) (span : Span) :
    (ofLexeme lexeme span).span = span := rfl

/-- Where the token starts. -/
def offset (t : Token) : Nat := t.span.start

/-- Whether the token is the given word, be it a keyword or an identifier. -/
def isWord (t : Token) (text : String) : Bool :=
  (t.kind == .keyword || t.kind == .identifier) && t.lexeme == text

/-- Whether the token is one of the two words that begin and end a loop. -/
def isLoopWord (t : Token) : Bool := t.isWord "while" || t.isWord "end-while"

/-- Whether the token is the given parenthesis. -/
def isParen (t : Token) (text : String) : Bool := t.kind == .paren && t.lexeme == text

/-- The line of the token in a listing. -/
def display (t : Token) : String :=
  "[" ++ t.kind.name ++ "] \"" ++ t.lexeme ++ "\" @" ++ toString t.offset

/-- The same token where `offset` more bytes stand before the text. -/
def shift (t : Token) (offset : Nat) : Token := { t with span := t.span.shift offset }

end Token

end Stepwise
