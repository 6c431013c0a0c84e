import DiagramText.Peg.Rule

/-!
# Lexemes

The rules that the grammars of all kinds of diagrams share: blanks and comments inside a line, line
ends, words and numbers, quoted strings, free text, and the frame of a document, in which comment
lines and blank lines may stand before the header and between statements.
-/

namespace DiagramText.Peg

/-- A letter or an underscore starts an identifier. -/
def isIdentStart (c : Char) : Bool := c.isAlpha || c == '_'

/-- Letters, digits, underscores and dots continue an identifier. -/
def isIdentChar (c : Char) : Bool := c.isAlphanum || c == '_' || c == '.'

/-- Letters, digits, underscores and hyphens make up a word. -/
def isWordChar (c : Char) : Bool := c.isAlphanum || c == '_' || c == '-'

/-- A character of a word. -/
def wordChar : Rule := .chars (.satisfying isWordChar "word character")

/-- Spaces and tabs, if any. -/
def ws : Rule := .quiet (many (oneOf " \t"))

/-- Spaces and tabs, at least one. -/
def ws1 : Rule := .labelled "whitespace" (many1 (oneOf " \t"))

/-- The end of a line. -/
def newline : Rule := .labelled "newline" (.choice [lit "\r\n", lit "\n"])

/-- A comment: two percent signs and the rest of the line. -/
def comment : Rule := .sequence [lit "%%", .quiet (many (noneOf "\r\n"))]

/-- What may follow a statement on its line, and the end of that line or of the input. -/
def eol : Rule :=
  .sequence
    [ws, .labelled "end of line" (.sequence [.optional comment, .choice [newline, endOfInput]])]

/-- A line without a statement. -/
def blankLine : Rule := .quiet (.sequence [ws, .optional comment, newline])

/-- The lines before the header. -/
def preamble : Rule := many blankLine

/-- An identifier. -/
def ident : Rule :=
  .labelled "identifier"
    (.sequence
      [.chars (.satisfying isIdentStart "letter or '_'"),
        many (.chars (.satisfying isIdentChar "identifier character"))])

/-- A word. -/
def word : Rule := .labelled "word" (many1 wordChar)

/-- A string in double quotes on one line, in which a backslash takes the next character along. -/
def quotedString : Rule :=
  .labelled "quoted string"
    (.sequence
      [lit "\"",
        .quiet (many (.choice [.sequence [lit "\\", noneOf "\r\n"], noneOf "\"\\\r\n"])),
        lit "\""])

/-- Everything up to the end of the line. -/
def restOfLine : Rule := .quiet (many (noneOf "\r\n"))

/-- Everything up to one of the characters of `stop`. -/
def textUntil (stop : String) : Rule := .quiet (many (noneOf stop))

/-- Everything up to one of the characters of `stop`, at least one character. -/
def text1Until (stop label : String) : Rule := .labelled label (.quiet (many1 (noneOf stop)))

/-- A keyword: no character of a word follows it. -/
def keyword (text : String) : Rule := .sequence [lit text, .notAhead wordChar]

/-- A keyword in any case of letters. -/
def keywordAnyCase (text : String) : Rule := .sequence [litAnyCase text, .notAhead wordChar]

/-- Digits. -/
def digits : Rule := many1 (range '0' '9')

/-- A whole number without a sign. -/
def integer : Rule := .labelled "integer" digits

/-- A number with or without a sign, whole or with a fraction. -/
def number : Rule :=
  .labelled "number"
    (.sequence
      [.optional (oneOf "+-"),
        .choice
          [.sequence [digits, .optional (.sequence [lit ".", digits])],
            .sequence [lit ".", digits]]])

/-- Statements, one to a line, with blank lines and comments between them. -/
def statementLines (statement : Rule) : Rule :=
  many (.choice [blankLine, .sequence [ws, statement, eol]])

/-- The accessible title or description of a diagram. A description in braces may run over several
lines. -/
def accessibility (titleField descriptionField : String) : Rule :=
  .choice
    [.sequence [keyword "accTitle", ws, lit ":", ws, .capture titleField restOfLine],
      .sequence
        [keyword "accDescr", ws,
          .choice
            [.sequence [lit "\x7b", .capture descriptionField (textUntil "\x7d"), lit "\x7d"],
              .sequence [lit ":", ws, .capture descriptionField restOfLine]]]]

/-- The title of a diagram. -/
def title (field : String) : Rule := .sequence [keyword "title", ws, .capture field restOfLine]

/-- A document: its header on a line of its own, and then the body up to the end of the input. -/
def document (header body : Rule) : Rule :=
  .sequence [preamble, ws, header, eol, body, endOfInput]

end DiagramText.Peg
