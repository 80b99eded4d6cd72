import AstPromotion.Sketch.Basic
import AstPromotion.Sketch.Frontier

/-! # Reading sketches

A sketch is one group with layout around it: blanks, line ends and comments from
a number sign to the end of the line. The next character tells what kind of item
starts, so reading never goes back.
-/

namespace AstPromotion.Sketch

/-- What was read, or the frontier at which reading failed. -/
abbrev Reading := Except Frontier

/-- How many characters of layout stand at the head of a text, whose start may be inside a
comment. -/
def layoutLength : (inComment : Bool) → List Char → Nat
  | _, [] => 0
  | true, char :: rest => layoutLength (char != '\n') rest + 1
  | false, char :: rest =>
    if char == '#' then layoutLength true rest + 1
    else if char == ' ' || char == '\t' || char == '\r' || char == '\n' then
      layoutLength false rest + 1
    else 0

def Cursor.skipLayout (cursor : Cursor) : Cursor :=
  cursor.advance (layoutLength false cursor.rest)

def isWordStart (char : Char) : Bool :=
  char.isAlpha || char == '_'

def isWordPart (char : Char) : Bool :=
  char.isAlphanum || char == '_'

/-- A word, from its first character to the last that can belong to it. -/
def readWord (cursor : Cursor) : String × Cursor :=
  let word := cursor.rest.takeWhile isWordPart
  (String.ofList word, (cursor.advance word.length).expect [.wordPart])

/-- A number: digits, and a point with more digits if there are any behind it. -/
def readNumber (cursor : Cursor) : String × Cursor :=
  let whole := cursor.rest.takeWhile Char.isDigit
  let stop := (cursor.advance whole.length).expect [.digit]
  match stop.rest with
  | '.' :: rest =>
    let fraction := rest.takeWhile Char.isDigit
    let last := (stop.advance (fraction.length + 1)).expect [.digit]
    if fraction.isEmpty then (String.ofList whole, { stop with furthest := last.furthest })
    else (String.ofList (whole ++ '.' :: fraction), last)
  | _ => (String.ofList whole, stop.expect [.point])

/-- The rest of a string whose opening quote was read. -/
def readString (cursor : Cursor) : Reading (Token × Cursor) :=
  let text := cursor.rest.takeWhile (· != '"')
  let stop := (cursor.advance text.length).expect [.stringPart]
  match stop.rest with
  | [] => .error (stop.expect [.stringQuote]).furthest
  | _ :: _ => .ok (.string (String.ofList text), stop.advance 1)

/-- The rest of a mark whose opening quote was read. -/
def readMark (cursor : Cursor) : Reading (Token × Cursor) :=
  let spelling := cursor.rest.takeWhile (· != '\'')
  let stop := (cursor.advance spelling.length).expect [.markPart]
  match spelling, stop.rest with
  | [], _ => .error stop.furthest
  | _ :: _, [] => .error (stop.expect [.markQuote]).furthest
  | _ :: _, _ :: _ =>
    match Mark.ofSpelling? (String.ofList spelling) with
    | some sign => .ok (.mark sign, stop.advance 1)
    | none => .error ((stop.advance 1).expect [.markSpelling]).furthest

/-- The token at a cursor where anything but a token has been ruled out. -/
def readToken (cursor : Cursor) : Reading (Token × Cursor) :=
  match cursor.rest with
  | '"' :: _ => readString (cursor.advance 1)
  | '\'' :: _ => readMark (cursor.advance 1)
  | char :: _ =>
    if char.isDigit then
      let (text, next) := readNumber cursor
      .ok (.number text, next)
    else if isWordStart char then
      let (text, next) := readWord cursor
      .ok (.word text, next)
    else .error cursor.furthest
  | [] => .error cursor.furthest

/-- The name of a group whose opening parenthesis was read. -/
def readName (cursor : Cursor) : Reading (String × Cursor) :=
  let start := cursor.skipLayout
  match start.rest with
  | char :: _ =>
    if isWordStart char then .ok (readWord start) else .error (start.expect [.wordStart]).furthest
  | [] => .error (start.expect [.wordStart]).furthest

/-- The group of a name and items, its closing parenthesis read. Only kinds that list their
children can be written. -/
def closeGroup (name : String) (items : List Sketch) (cursor : Cursor) : Reading (Sketch × Cursor) :=
  match Kind.ofName? name with
  | some (.group kind) => .ok (.group kind items, cursor)
  | some _ => .error (cursor.expect [.groupingName]).furthest
  | none => .error (cursor.expect [.groupName]).furthest

/-- What an item can start with. -/
def itemStarts : List Expectation :=
  [.openGroup, .stringQuote, .digit, .markQuote, .wordStart]

/-- The items up to the parenthesis that closes their group, and the cursor behind it. Every item
takes at least one character, so a text's length is fuel enough for it. -/
def readItems : (fuel : Nat) → Cursor → Reading (List Sketch × Cursor)
  | 0, cursor => .error cursor.furthest
  | fuel + 1, cursor => do
    let start := cursor.skipLayout.expect itemStarts
    match start.rest with
    | ')' :: _ => return ([], start.advance 1)
    | '(' :: _ =>
      let (name, inside) ← readName (start.advance 1)
      let (items, behind) ← readItems fuel inside
      let (built, next) ← closeGroup name items behind
      let (others, last) ← readItems fuel next
      return (built :: others, last)
    | _ =>
      let (token, next) ← readToken (start.expect [.closeGroup])
      let (others, last) ← readItems fuel next
      return (leaf token :: others, last)

/-- The group that makes up a whole text. -/
def readAll (source : List Char) : Reading (Sketch × Cursor) := do
  let start := Cursor.skipLayout { rest := source }
  match start.rest with
  | '(' :: _ =>
    let (name, inside) ← readName (start.advance 1)
    let (items, behind) ← readItems (source.length + 1) inside
    let (built, next) ← closeGroup name items behind
    let last := next.skipLayout
    if last.rest.isEmpty then return (built, last)
    else .error (last.expect [.endOfText]).furthest
  | _ => .error (start.expect [.openGroup]).furthest

/-- The sketch that a text is. -/
def parse (source : String) : Except ReadError Sketch :=
  match readAll source.toList with
  | .ok (sketch, _) => .ok sketch
  | .error frontier => .error (.ofFrontier source.toList frontier)

end AstPromotion.Sketch
