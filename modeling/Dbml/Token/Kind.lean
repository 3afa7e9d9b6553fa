/-!
# Kinds of tokens

A token is a literal, a relation mark, a delimiter or a keyword; the two kinds outside these bands
are the end of the input and the kind reserved for text that is no token. Every kind has a spelling,
used in dumps, and a description, used in messages. Relation marks, delimiters and keywords are
spelled as they are written.
-/

namespace Dbml

/-- Literals: the tokens whose text is not fixed by their kind. -/
inductive Literal where
  | ident
  | int
  | float
  | doubleQuoted
  | singleQuoted
  | funcExpr
  | multiline
deriving DecidableEq, Repr

/-- Relation marks, by the cardinalities they relate. -/
inductive Relation where
  | manyToOne
  | oneToOne
  | oneToMany
deriving DecidableEq, Repr

/-- Brackets and punctuation. -/
inductive Delimiter where
  | lParen
  | rParen
  | lBrack
  | rBrack
  | lBrace
  | rBrace
  | colon
  | semicolon
  | period
  | comma
deriving DecidableEq, Repr

/-- The reserved words. -/
inductive Keyword where
  | project
  | databaseType
  | table
  | aliased
  | indexes
  | ref
  | enum
  | note
deriving DecidableEq, Repr

/-- What sort of token a token is. -/
inductive Kind where
  | illegal
  | eof
  | literal (l : Literal)
  | relation (r : Relation)
  | delimiter (d : Delimiter)
  | keyword (k : Keyword)
deriving DecidableEq, Repr

/-! ## Written forms -/

/-- The character that a relation mark is written with. -/
def Relation.char : Relation → Char
  | manyToOne => '>'
  | oneToOne => '-'
  | oneToMany => '<'

/-- The character that a delimiter is written with. -/
def Delimiter.char : Delimiter → Char
  | lParen => '('
  | rParen => ')'
  | lBrack => '['
  | rBrack => ']'
  | lBrace => '{'
  | rBrace => '}'
  | colon => ':'
  | semicolon => ';'
  | period => '.'
  | comma => ','

namespace Keyword

/-- The reserved words in their fixed order. -/
def all : List Keyword := [project, databaseType, table, aliased, indexes, ref, enum, note]

/-- The word itself. Case counts. -/
def word : Keyword → String
  | project => "Project"
  | databaseType => "database_type"
  | table => "Table"
  | aliased => "as"
  | indexes => "Indexes"
  | ref => "Ref"
  | enum => "Enum"
  | note => "Note"

/-- The reserved word with the given spelling. -/
def ofWord? (w : String) : Option Keyword := all.find? (·.word == w)

end Keyword

namespace Kind

/-- The kind of a word: a keyword if it is spelled like one, an identifier otherwise. -/
def ofWord (w : String) : Kind :=
  match Keyword.ofWord? w with
  | some k => keyword k
  | none => literal .ident

/-- The kind of a symbol: a relation mark or a delimiter. -/
def ofSymbol? : Char → Option Kind
  | '>' => some (relation .manyToOne)
  | '-' => some (relation .oneToOne)
  | '<' => some (relation .oneToMany)
  | '(' => some (delimiter .lParen)
  | ')' => some (delimiter .rParen)
  | '[' => some (delimiter .lBrack)
  | ']' => some (delimiter .rBrack)
  | '{' => some (delimiter .lBrace)
  | '}' => some (delimiter .rBrace)
  | ':' => some (delimiter .colon)
  | ';' => some (delimiter .semicolon)
  | '.' => some (delimiter .period)
  | ',' => some (delimiter .comma)
  | _ => none

/-- The name of the kind in a dump. No two kinds share one. -/
def spelling : Kind → String
  | illegal => "ILLEGAL"
  | eof => "EOF"
  | literal .ident => "IDENT"
  | literal .int => "INT"
  | literal .float => "FLOAT"
  | literal .doubleQuoted => "QUOTE"
  | literal .singleQuoted => "STRING"
  | literal .funcExpr => "FUNCEXPR"
  | literal .multiline => "MULTILINE"
  | relation r => r.char.toString
  | delimiter d => d.char.toString
  | keyword k => k.word

/-- The words for the kind in a message; a fixed text is shown between apostrophes. -/
def description : Kind → String
  | illegal => "illegal token"
  | eof => "end of input"
  | literal .ident => "identifier"
  | literal .int => "integer literal"
  | literal .float => "float literal"
  | literal .doubleQuoted => "double-quoted string"
  | literal .singleQuoted => "single-quoted string"
  | literal .funcExpr => "function expression"
  | literal .multiline => "multiline string"
  | relation r => "'" ++ r.char.toString ++ "'"
  | delimiter d => "'" ++ d.char.toString ++ "'"
  | keyword k => "'" ++ k.word ++ "'"

/-- The mark that stands before and after the value of a literal of this kind. -/
def fence : Kind → List Char
  | literal .doubleQuoted => ['"']
  | literal .singleQuoted => ['\'']
  | literal .funcExpr => ['\x60']
  | literal .multiline => ['\'', '\'', '\'']
  | _ => []

/-! ## Bands -/

/-- Whether the kind is one of the literals. -/
def isLiteral : Kind → Bool
  | literal _ => true
  | _ => false

/-- Whether the kind is one of the relation marks. -/
def isRelation : Kind → Bool
  | relation _ => true
  | _ => false

/-- Whether the kind is one of the delimiters. -/
def isDelimiter : Kind → Bool
  | delimiter _ => true
  | _ => false

/-- Whether the kind is one of the keywords. -/
def isKeyword : Kind → Bool
  | keyword _ => true
  | _ => false

/-- The place of a keyword among the reserved words, counted from 0. -/
def keywordIndex? : Kind → Option Nat
  | keyword k => Keyword.all.idxOf? k
  | _ => none

end Kind

end Dbml
