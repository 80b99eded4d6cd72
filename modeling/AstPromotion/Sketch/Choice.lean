import AstPromotion.Sketch.Reader

/-! # Reading by ordered choice

The grammar of sketches as choices between alternatives that are tried in order.
A node is allocated as soon as it has been read. An alternative that fails gives
up its place in the text, but not what it has allocated, so it takes an argument
that no such node is left behind when a whole text is read.
-/

namespace AstPromotion.Sketch.Choice

def skipLayout (text : List Char) : List Char :=
  text.drop (layoutLength false text)

def string? : List Char → Option (Token × List Char)
  | '"' :: inside =>
    match inside.dropWhile (· != '"') with
    | _ :: rest => some (.string (String.ofList (inside.takeWhile (· != '"'))), rest)
    | [] => none
  | _ => none

def number? (text : List Char) : Option (Token × List Char) :=
  let whole := text.takeWhile Char.isDigit
  let behind := text.dropWhile Char.isDigit
  if whole.isEmpty then none
  else
    match behind with
    | '.' :: rest =>
      let fraction := rest.takeWhile Char.isDigit
      if fraction.isEmpty then some (.number (String.ofList whole), behind)
      else some (.number (String.ofList (whole ++ '.' :: fraction)), rest.dropWhile Char.isDigit)
    | _ => some (.number (String.ofList whole), behind)

def mark? : List Char → Option (Token × List Char)
  | '\'' :: inside =>
    match Mark.ofSpelling? (String.ofList (inside.takeWhile (· != '\''))),
      inside.dropWhile (· != '\'') with
    | some sign, _ :: rest => some (.mark sign, rest)
    | _, _ => none
  | _ => none

def word? (text : List Char) : Option (String × List Char) :=
  if text.head?.any isWordStart then
    some (String.ofList (text.takeWhile isWordPart), text.dropWhile isWordPart)
  else none

/-- The first of a string, a number, a mark and a word that can be read. -/
def token? (text : List Char) : Option (Token × List Char) :=
  (string? text).or <| (number? text).or <| (mark? text).or <|
    (word? text).map fun (word, rest) => (.word word, rest)

/-- Allocates what was read as a node. -/
def node : Option (Form Id × List Char) × Arena → Option (Id × List Char) × Arena
  | (some (form, rest), arena) =>
    let (id, arena) := arena.promote form
    (some (id, rest), arena)
  | (none, arena) => (none, arena)

/-- A reader of items that stand one after another: their nodes and the text behind them. -/
abbrev ItemsReader := List Char → Arena → Option (List Id × List Char) × Arena

/-- Closes a group whose items were read. Its last parenthesis and its name are looked at only
now. -/
def close (file name : String) :
    Option (List Id × List Char) × Arena → Option (Form Id × List Char) × Arena
  | (some (ids, last), arena) =>
    match skipLayout last, Kind.ofName? name with
    | ')' :: rest, some (.group kind) => (some (.group (kind.heading file) ids, rest), arena)
    | _, _ => (none, arena)
  | (none, arena) => (none, arena)

def group (file : String) (readItems : ItemsReader) (text : List Char) (arena : Arena) :
    Option (Form Id × List Char) × Arena :=
  match text with
  | '(' :: inside =>
    match word? (skipLayout inside) with
    | some (name, behind) => close file name (readItems (skipLayout behind) arena)
    | none => (none, arena)
  | _ => (none, arena)

/-- A group, or else a token. -/
def item (file : String) (readItems : ItemsReader) (text : List Char) (arena : Arena) :
    Option (Id × List Char) × Arena :=
  match node (group file readItems text arena) with
  | (some read, arena) => (some read, arena)
  | (none, arena) =>
    node ((token? text).map fun (token, rest) => (.leaf token.kind (.raw token.raw), rest), arena)

/-- Items with layout between them, as many as there are. Layout that no item follows is not
taken. -/
def items (file : String) : (fuel : Nat) → ItemsReader
  | 0, _, arena => (none, arena)
  | fuel + 1, text, arena =>
    match item file (items file fuel) text arena with
    | (none, arena) => (some ([], text), arena)
    | (some (id, behind), arena) =>
      match items file fuel (skipLayout behind) arena with
      | (some (ids, last), arena) => (some (id :: ids, if ids.isEmpty then behind else last), arena)
      | (none, arena) => (none, arena)

/-- Takes a node that only layout follows. -/
def whole : Option (Id × List Char) × Arena → Option Id × Arena
  | (some (id, last), arena) => (if (skipLayout last).isEmpty then some id else none, arena)
  | (none, arena) => (none, arena)

/-- A whole text, read into a new arena. -/
def tree (file source : String) : Option Id × Arena :=
  let text := source.toList
  whole (node (group file (items file (text.length + 1)) (skipLayout text) {}))

end AstPromotion.Sketch.Choice
