import Goalbase.Json.Token

/-!
# Goalbase.Json.Text

Writing JSON values.

Mathematical meaning: `Json.tokens` lists the tokens of a value, members in the order they are held,
and `Json.text` is their text, without blanks. Tokens are put in front of a given list, so that
nested containers are not copied.
-/

namespace Goalbase

namespace Json

mutual

/-- The tokens of a value, in front of `rest`. -/
def tokensOnto (rest : List Token) : Json → List Token
  | .null => .null :: rest
  | .bool b => .bool b :: rest
  | .number n => .number (some n) :: rest
  | .string s => .string (some s) :: rest
  | .array [] => .openBracket :: .closeBracket :: rest
  | .array (j :: js) => .openBracket :: tokensOnto (elementsOnto (.closeBracket :: rest) js) j
  | .object [] => .openBrace :: .closeBrace :: rest
  | .object ((k, j) :: ms) =>
    .openBrace :: .string (some k) :: .colon ::
      tokensOnto (membersOnto (.closeBrace :: rest) ms) j

def elementsOnto (rest : List Token) : List Json → List Token
  | [] => rest
  | j :: js => .comma :: tokensOnto (elementsOnto rest js) j

def membersOnto (rest : List Token) : List (String × Json) → List Token
  | [] => rest
  | (k, j) :: ms => .comma :: .string (some k) :: .colon :: tokensOnto (membersOnto rest ms) j

end

def tokens (j : Json) : List Token := tokensOnto [] j

def chars (j : Json) : List Char := Token.spell j.tokens

def text (j : Json) : String := String.ofList j.chars

end Json

def Literal.text (a : Literal) : String := a.json.text

end Goalbase
