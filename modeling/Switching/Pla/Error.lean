import Switching.Table.Error

/-!
# Faults in table files
-/

namespace Switching.Pla

/-- The two sides of a table. -/
inductive Side
  | input
  | output
  deriving DecidableEq, Repr

/-- The name of a side. -/
def Side.name : Side → String
  | .input => "input"
  | .output => "output"

/-- The reasons for which a text is not a table file. -/
inductive FormatError
  | missingInputCount
  | missingOutputCount
  | invalidInputCount (value : String)
  | invalidOutputCount (value : String)
  | invalidInputCharacter (char : Char) (position : Nat)
  | invalidOutputCharacter (char : Char) (position : Nat)
  | cubeDimensions (line actual expected : Nat)
  | labelCount (side : Side) (actual expected : Nat)
  | conflictingValue (pattern output : String)
  deriving DecidableEq, Repr

/-- The wording of a format error. -/
def FormatError.message : FormatError → String
  | .missingInputCount => "PLA file missing .i directive"
  | .missingOutputCount => "PLA file missing .o directive"
  | .invalidInputCount value => "Invalid .i directive value: '" ++ value ++ "'"
  | .invalidOutputCount value => "Invalid .o directive value: '" ++ value ++ "'"
  | .invalidInputCharacter char position =>
      "Invalid input character '" ++ char.toString ++ "' at position " ++ toString position
  | .invalidOutputCharacter char position =>
      "Invalid output character '" ++ char.toString ++ "' at position " ++ toString position
  | .cubeDimensions line actual expected =>
      s!"Cube on line {line} has {actual} values, expected {expected}"
  | .labelCount side actual expected =>
      side.name ++ s!" label count ({actual}) doesn't match " ++ side.name ++
        s!" count ({expected})"
  | .conflictingValue pattern output =>
      "Conflicting values for output '" ++ output ++ "' at input " ++ pattern

/-- The reasons for which a file or stream cannot be used. -/
inductive StreamFault
  | invalidUtf8
  | notFound
  | notDirectory
  | isDirectory
  | full
  | unavailable (reason : String)
  deriving DecidableEq, Repr

/-- The wording of a stream fault. -/
def StreamFault.message : StreamFault → String
  | .invalidUtf8 => "stream did not contain valid UTF-8"
  | .notFound => "No such file or directory (os error 2)"
  | .notDirectory => "Not a directory (os error 20)"
  | .isDirectory => "Is a directory (os error 21)"
  | .full => "limit reached"
  | .unavailable reason => reason

/-- The reasons for which a table file cannot be read. -/
inductive ReadError
  | format (error : FormatError)
  | table (error : TableError)
  | stream (fault : StreamFault)
  deriving DecidableEq, Repr

namespace ReadError

/-- The wording of the fault behind a read error. -/
def cause : ReadError → String
  | .format error => error.message
  | .table error => error.message
  | .stream fault => fault.message

/-- The wording of a read error. -/
def message : ReadError → String
  | .format error => "PLA format error: " ++ error.message
  | .table error => "Invalid truth table: " ++ error.message
  | .stream fault => "IO error: " ++ fault.message

end ReadError

/-- The reason for which a table file cannot be written. -/
structure WriteError where
  fault : StreamFault
  deriving DecidableEq, Repr

/-- The wording of a write error. -/
def WriteError.message (error : WriteError) : String :=
  "IO error: " ++ error.fault.message

end Switching.Pla
