import AstPromotion.Sketch.Basic

/-! # Writing sketches

The lexemes of a sketch from left to right, and the text in which single spaces
keep them apart.
-/

namespace AstPromotion

/-- How a token is written. -/
def Token.lexeme : Token → String
  | string text => "\"" ++ text ++ "\""
  | number text | word text => text
  | mark sign => "'" ++ sign.spelling ++ "'"

namespace Sketch

mutual

/-- What is written for a sketch, layout aside. -/
def lexemes : Sketch → List String
  | leaf token => [token.lexeme]
  | group kind items => "(" :: kind.name :: lexemesEach items ++ [")"]

/-- The lexemes of sketches in a row. -/
def lexemesEach : List Sketch → List String
  | [] => []
  | item :: rest => lexemes item ++ lexemesEach rest

end

/-- A text of the sketch. -/
def render (sketch : Sketch) : String :=
  String.intercalate " " sketch.lexemes

end Sketch

end AstPromotion
