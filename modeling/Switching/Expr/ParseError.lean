/-!
# Faults in expression text
-/

namespace Switching

/-- The reasons for which a text is not an expression. -/
inductive ParseFault
  | unexpectedCharacter (char : Char)
  | unexpectedToken (text : String)
  | unexpectedEnd
  | unclosedParenthesis
  | trailingToken (text : String)
  | nestedTooDeeply
  deriving DecidableEq, Repr

/-- A fault and the byte offset of the lexeme at which it shows. -/
structure ParseError where
  fault : ParseFault
  position : Nat
  deriving DecidableEq, Repr

/-- The wording of a fault. -/
def ParseFault.message : ParseFault → String
  | .unexpectedCharacter c => "Unexpected character: " ++ c.toString
  | .unexpectedToken text => "Unexpected token: " ++ text
  | .unexpectedEnd => "Unexpected end of input"
  | .unclosedParenthesis => "Expected closing parenthesis"
  | .trailingToken text => "Unexpected token after expression: " ++ text
  | .nestedTooDeeply => "Expression nested too deeply"

/-- The tokens that would have been accepted in place of the faulty one, where
the fault names them. -/
def ParseFault.expected? : ParseFault → Option (List String)
  | .unclosedParenthesis => some [")"]
  | _ => none

/-- The wording of a parse error: fault, position and accepted tokens. -/
def ParseError.message (error : ParseError) : String :=
  let base := error.fault.message ++ " at position " ++ toString error.position
  match error.fault.expected? with
  | none => base
  | some tokens => base ++ ". Expected: " ++ String.intercalate ", " tokens

end Switching
