import AstPromotion.Binary64.Shortest

/-! # Payloads of leaves

A leaf holds its source text until normalization reads that text as a value.
-/

namespace AstPromotion

/-- What a leaf carries: the text it was written with, or the value read from it. -/
inductive Value
  | raw (text : String)
  | number (value : Binary64)
  | boolean (value : Bool)
  | text (value : String)
  | name (value : String)
deriving DecidableEq, Repr

namespace Value

def isRaw : Value → Bool
  | .raw _ => true
  | _ => false

/-- The characters of a payload that is made of characters. -/
def word? : Value → Option String
  | .raw word | .text word | .name word => some word
  | .number _ | .boolean _ => none

/-- How a payload is shown. -/
def display : Value → String
  | .raw word | .text word | .name word => word
  | .number value => value.text
  | .boolean value => if value then "true" else "false"

end Value

end AstPromotion
