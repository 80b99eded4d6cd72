import AstPromotion.Binary64.Numeral
import AstPromotion.Rule
import AstPromotion.Text.Blank

/-! # Normalization rules

Before anything is grouped, payloads are read as values, wrappers that add
nothing give way to what they wrap, and separators are dropped.
-/

namespace AstPromotion.Normalization

/-- Reads a number, blank characters around it aside. -/
def readNumber (_ : LeafKind) (text : String) : Option Value :=
  (Binary64.ofNumeral? (Text.trim text)).map .number

def readBoolean (_ : LeafKind) (text : String) : Option Value :=
  match text with
  | "true" => some (.boolean true)
  | "false" => some (.boolean false)
  | _ => none

/-- The text without the double quotes around it; both must be there. -/
def unquote (text : String) : String :=
  match text.toList with
  | '"' :: rest => if rest.getLast? == some '"' then String.ofList rest.dropLast else text
  | _ => text

/-- A string literal holds text, any other word a name. -/
def readWord (kind : LeafKind) (text : String) : Option Value :=
  match kind with
  | .literal .string => some (.text (unquote text))
  | _ => some (.name text)

def isSeparator : Kind → Bool :=
  [Punctuation.comma, .semicolon, .leftBracket, .rightBracket].map
    (fun sign => Kind.leaf (.mark (.punctuation sign))) |>.contains

def coerceNumeric : Rule where
  name := "coerce numeric literal"
  subject := (· == .leaf (.literal .numeric))
  shapes := [⟨[], .coerce readNumber⟩]

def coerceBoolean : Rule where
  name := "coerce boolean literal"
  subject := (· == .leaf (.literal .boolean))
  shapes := [⟨[], .coerce readBoolean⟩]

def coerceText : Rule where
  name := "coerce text literal"
  subject := [Kind.leaf (.literal .string), .leaf (.literal .identifier), .leaf .keyword].contains
  shapes := [⟨[], .coerce readWord⟩]

def elideExpressionWrapper : Rule where
  name := "elide expression wrapper"
  subject := (·.hasRole .expression)
  shapes := [⟨[.role .expression], .lift 0⟩]

def elideParentheses : Rule where
  name := "elide parentheses"
  subject := (·.hasRole .expression)
  shapes := [⟨[.sign .leftParen, .role .expression, .sign .rightParen], .lift 1⟩]

def elideLiteralWrapper : Rule where
  name := "elide literal wrapper"
  subject := (·.hasRole .expression)
  shapes := [⟨[.role .literalValue], .lift 0⟩]

def stripPunctuation : Rule where
  name := "strip punctuation"
  subject := isSeparator
  shapes := [⟨[], .remove⟩]

/-- The rules in order of precedence. -/
def catalogue : Catalogue :=
  [coerceNumeric, coerceBoolean, coerceText, elideExpressionWrapper, elideParentheses,
    elideLiteralWrapper, stripPunctuation]

end AstPromotion.Normalization
