/-! # What a reader would have accepted

While it reads, a reader notes what it looked for in vain and where. Only the
furthest such place counts: a text that cannot be read is reported there, with
everything that would have been accepted.
-/

namespace AstPromotion.Sketch

/-- Something a reader looks for. -/
inductive Expectation
  | markQuote
  | openGroup
  | closeGroup
  | point
  | stringQuote
  | endOfText
  | digit
  | wordPart
  | wordStart
  | stringPart
  | markPart
  | groupName
  | groupingName
  | markSpelling
deriving DecidableEq, Repr

namespace Expectation

/-- How an expectation is described. -/
def text : Expectation → String
  | markQuote => "\"'\""
  | openGroup => "\"(\""
  | closeGroup => "\")\""
  | point => "\".\""
  | stringQuote => "\"\\\"\""
  | endOfText => "EOF"
  | digit => "['0'..='9']"
  | wordPart => "['a'..='z' | 'A'..='Z' | '0'..='9' | '_']"
  | wordStart => "['a'..='z' | 'A'..='Z' | '_']"
  | stringPart => "[^'\"']"
  | markPart => "[^'\\'']"
  | groupName => "group kind"
  | groupingName => "provisional, container or program kind"
  | markSpelling => "punctuation or operator"

/-- Every expectation, in the order of their texts. -/
def all : List Expectation :=
  [markQuote, openGroup, closeGroup, point, stringQuote, endOfText, digit, wordPart, wordStart,
    stringPart, markPart, groupName, groupingName, markSpelling]

/-- Several alternatives in order and without repetition, as a message lists them. -/
def describe (expected : List Expectation) : String :=
  match (all.filter expected.contains).map text with
  | [only] => only
  | texts => "one of " ++ String.intercalate ", " texts

end Expectation

/-- The furthest place where something was looked for in vain, and what was. -/
structure Frontier where
  offset : Nat := 0
  expected : List Expectation := []
deriving DecidableEq, Repr

/-- Notes expectations at a place; those further back than the furthest place are forgotten. -/
def Frontier.note (frontier : Frontier) (offset : Nat) (expected : List Expectation) : Frontier :=
  if frontier.offset < offset then { offset, expected }
  else if frontier.offset = offset then
    { frontier with expected := expected ++ frontier.expected }
  else frontier

/-- A place in a text, the text from there on, and the frontier so far. -/
structure Cursor where
  rest : List Char
  offset : Nat := 0
  furthest : Frontier := {}

namespace Cursor

def advance (cursor : Cursor) (count : Nat) : Cursor :=
  { cursor with rest := cursor.rest.drop count, offset := cursor.offset + count }

/-- Notes what was looked for at the cursor. -/
def expect (cursor : Cursor) (expected : List Expectation) : Cursor :=
  { cursor with furthest := cursor.furthest.note cursor.offset expected }

end Cursor

/-- Why a text is no sketch: the line and column of the furthest place and what was looked for
there. -/
structure ReadError where
  line : Nat
  column : Nat
  expected : List Expectation
deriving DecidableEq, Repr

namespace ReadError

/-- The error at a frontier; lines and columns are counted from one, columns in characters. -/
def ofFrontier (source : List Char) (frontier : Frontier) : ReadError :=
  let before := source.take frontier.offset
  { line := before.count '\n' + 1
    column := (before.reverse.takeWhile (· != '\n')).length + 1
    expected := frontier.expected }

def message (error : ReadError) : String :=
  "error at " ++ toString error.line ++ ":" ++ toString error.column ++ ": expected " ++
    Expectation.describe error.expected

end ReadError

end AstPromotion.Sketch
