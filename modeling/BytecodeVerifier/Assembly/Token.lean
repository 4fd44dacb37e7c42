import BytecodeVerifier.Lexing.Lexer
import BytecodeVerifier.Source

/-!
# The tokens of assembly language

`rules` gives the form of each token; at any place the first rule which matches decides.  Blanks
and comments are dropped.  Lexing succeeds when the whole text is cut into tokens, the last of
which then marks its end.
-/

namespace BytecodeVerifier.Assembly

open Lexing

/-- The kinds of token. -/
inductive TokenKind where
  | endOfText
  | whitespace
  | comment
  | leftCurly
  | rightCurly
  | comma
  | colon
  | minus
  | number
  | string
  | descriptor
  | type
  | identifier
  | methodKeyword
  | registersKeyword
  | endKeyword
  deriving DecidableEq, Repr, Inhabited

/-- The number by which a kind of token is known. -/
def TokenKind.tag : TokenKind → Nat
  | endOfText => 0
  | whitespace => 1
  | comment => 2
  | leftCurly => 3
  | rightCurly => 4
  | comma => 5
  | colon => 6
  | minus => 7
  | number => 10
  | string => 11
  | descriptor => 12
  | type => 13
  | identifier => 20
  | methodKeyword => 21
  | registersKeyword => 22
  | endKeyword => 23

/-! ### The form of tokens -/

namespace Form

open Scanner

/-- One given character. -/
def char (c : Char) : Scanner := unit [c]

/-- A decimal digit. -/
def digit : Scanner := within '0' '9'

/-- A small letter. -/
def small : Scanner := within 'a' 'z'

/-- A capital letter. -/
def capital : Scanner := within 'A' 'Z'

/-- A run of blanks and line ends. -/
def whitespace : Scanner := many (any [char ' ', char '\t', char '\r', char '\n'])

/-- A digit in base 2. -/
def binaryDigit : Scanner := within '0' '1'

/-- A digit in base 16. -/
def hexDigit : Scanner := any [digit, within 'A' 'F', within 'a' 'f']

/-- A number in base 2, 16 or 10, with underscores anywhere but first. -/
def number : Scanner :=
  any [
    sequenceOpen [sequence [word "0b", binaryDigit], many (any [binaryDigit, char '_'])],
    sequenceOpen [sequence [word "0x", hexDigit], many (any [hexDigit, char '_'])],
    sequenceOpen [digit, many (any [digit, char '_'])]]

/-- The first character of an identifier. -/
def identifierStart : Scanner := any [char '_', char '$', char '<', small, capital]

/-- The characters of an identifier. -/
def identifierRest : Scanner :=
  many (any [char '_', char '$', char '<', char '>', char '-', char '/', digit, small, capital])

/-- An identifier. -/
def identifier : Scanner := all [identifierStart, identifierRest]

/-- The characters of a class name. -/
def className : Scanner := many (any [char '_', char '$', char '/', digit, small, capital])

/-- The characters of field types, one after the other. -/
def fieldTypes : Scanner := many (any [char '[', char ';', className])

/-- A class, or the type of an array. -/
def type : Scanner :=
  any [sequence [char 'L', className, char ';'], sequence [char '[', fieldTypes]]

/-- Anything in parentheses on one line, and field types. -/
def descriptor : Scanner :=
  sequence [
    char '(',
    any [char ')', sequence [many (except [')', '\n']), char ')']],
    fieldTypes]

/-- Anything in quotation marks on one line. -/
def string : Scanner :=
  any [word "\"\"", sequence [char '"', many (except ['"', '\n']), char '"']]

/-- The rest of a line from a number sign on. -/
def comment : Scanner := sequenceOpen [char '#', upTo '\n']

end Form

/-- The form of each token, in the order in which they are tried. -/
def rules : List (Rule TokenKind) :=
  [⟨Form.comment, .comment⟩,
    ⟨Form.char '\x7b', .leftCurly⟩,
    ⟨Form.char '\x7d', .rightCurly⟩,
    ⟨Form.char ',', .comma⟩,
    ⟨Form.char ':', .colon⟩,
    ⟨Form.char '-', .minus⟩,
    ⟨Form.whitespace, .whitespace⟩,
    ⟨Form.number, .number⟩,
    ⟨Form.string, .string⟩,
    ⟨Form.descriptor, .descriptor⟩,
    ⟨.word ".method", .methodKeyword⟩,
    ⟨.word ".registers", .registersKeyword⟩,
    ⟨.word ".end", .endKeyword⟩,
    ⟨Form.type, .type⟩,
    ⟨Form.identifier, .identifier⟩,
    ⟨.eof, .endOfText⟩]

/-! ### Lexing -/

/-- A token with its text. -/
structure Token where
  kind : TokenKind
  start : Nat
  stop : Nat
  text : String
  deriving DecidableEq, Repr, Inhabited

/-- Where a token stands. -/
def Token.span (t : Token) : Source.Span := ⟨t.start, t.stop⟩

/-- The tokens of a source but for blanks and comments, or the span of text which is no token. -/
def tokens (f : Source) : Except Source.Span (List Token) :=
  let (found, lexer) := (Lexer.new rules f.contents.toList).collect [.whitespace, .comment]
  if lexer.remaining = 0 then
    .ok (found.map fun t => ⟨t.kind, t.start, t.stop, String.ofList (f.slice t.start t.stop)⟩)
  else .error ⟨lexer.index, lexer.index + lexer.remaining⟩

end BytecodeVerifier.Assembly
