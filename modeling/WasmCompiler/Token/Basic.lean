import WasmCompiler.Number.Text
import WasmCompiler.Source.Location

/-!
# Tokens

The words of the source language: literals, names, keywords, operators and delimiters. The
tables below give the spelling of every kind that has just one.
-/

namespace WasmCompiler

open Number (Double)

inductive TokenKind where
  | integer (value : Nat)
  | float (value : Double)
  | string (text : String)
  | identifier (name : String)
  | kwLet
  | kwVar
  | kwFunc
  | kwReturn
  | kwIf
  | kwElse
  | kwWhile
  | kwStruct
  | kwExport
  | kwPrint
  | kwTrue
  | kwFalse
  | plus
  | minus
  | star
  | slash
  | bang
  | assign
  | eq
  | ne
  | lt
  | gt
  | le
  | ge
  | andAnd
  | orOr
  | arrow
  | lparen
  | rparen
  | lbrace
  | rbrace
  | lbracket
  | rbracket
  | comma
  | dot
  | colon
  | semicolon
  | endOfInput
deriving DecidableEq, Repr, Inhabited

namespace TokenKind

/-- Words that are not names. -/
def keywords : List (String × TokenKind) :=
  [("let", kwLet), ("var", kwVar), ("func", kwFunc), ("return", kwReturn), ("if", kwIf),
   ("else", kwElse), ("while", kwWhile), ("struct", kwStruct), ("export", kwExport),
   ("print", kwPrint), ("true", kwTrue), ("false", kwFalse)]

/-- Operators of two characters; they win over those of one. -/
def pairs : List ((Char × Char) × TokenKind) :=
  [(('|', '|'), orOr), (('&', '&'), andAnd), (('-', '>'), arrow), (('=', '='), eq),
   (('!', '='), ne), (('<', '='), le), (('>', '='), ge)]

/-- Operators and delimiters of one character. -/
def singles : List (Char × TokenKind) :=
  [('+', plus), ('-', minus), ('*', star), ('/', slash), ('!', bang), ('=', assign), ('<', lt),
   ('>', gt), ('(', lparen), (')', rparen), ('\x7b', lbrace), ('\x7d', rbrace),
   ('[', lbracket), (']', rbracket), (',', comma), ('.', dot), (':', colon), (';', semicolon)]

/-- The spelling of a kind that has one. -/
def spelling? (kind : TokenKind) : Option String :=
  match pairs.find? (·.2 = kind) with
  | some ((c, d), _) => some (String.ofList [c, d])
  | none =>
    match singles.find? (·.2 = kind) with
    | some (c, _) => some (String.ofList [c])
    | none => (keywords.find? (·.2 = kind)).map (·.1)

/-- The token as messages name it. -/
def describe (kind : TokenKind) : String :=
  match kind with
  | integer value => "integer " ++ toString value
  | float value => "float " ++ value.display
  | string text => "string '" ++ text ++ "'"
  | identifier name => "identifier '" ++ name ++ "'"
  | endOfInput => "end of input"
  | other => "'" ++ (other.spelling?.getD "") ++ "'"

/-- A word of the source: a keyword if it is one and a name otherwise. -/
def ofWord (word : String) : TokenKind :=
  match keywords.lookup word with
  | some kind => kind
  | none => identifier word

end TokenKind

/-- A token and where it begins. -/
structure Token where
  kind : TokenKind
  location : Location
deriving DecidableEq, Repr, Inhabited

/-- Why no token can be read. -/
inductive LexError where
  | illegalCharacter (character : Char) (position : Position)
  | integerOverflow (literal : String) (location : Location)
deriving DecidableEq, Repr, Inhabited

/-- The error in words. -/
def LexError.message : LexError → String
  | .illegalCharacter character position =>
    "Illegal character '" ++ character.toString ++ "' at offset " ++ toString position.offset ++
      " (" ++ position.location.text ++ ")"
  | .integerOverflow literal location =>
    "Integer literal " ++ literal ++ " does not fit in i32 (" ++ location.text ++ ")"

/-- What reading the next token gives. -/
abbrev Lexeme := Except LexError Token

end WasmCompiler
