import Switching.Cover.Form
import Switching.Text.Blank

/-!
# Command-line arguments

Arguments are read from left to right.  An option is given by its long name
after two dashes, or by its letter after one dash, where letters of options
without a value can be run together.  The value of an option follows an equals
sign, directly follows the letter, or is the next argument, which then must
not look like an option itself.
-/

namespace Switching.CommandLine

/-- The options of the command line. -/
inductive Flag
  | expr
  | table
  | form
  | gates
  | enable
  | outputName
  | noPeephole
  | writeTable
  | verbose
  | version
  deriving DecidableEq, Repr

namespace Flag

/-- The option with the given long name. -/
def ofLong? : String → Option Flag
  | "expr" => some .expr
  | "table" => some .table
  | "form" => some .form
  | "gates" => some .gates
  | "enable" => some .enable
  | "output-name" => some .outputName
  | "no-peephole" => some .noPeephole
  | "write-table" => some .writeTable
  | "verbose" => some .verbose
  | "version" => some .version
  | _ => none

/-- The option with the given letter. -/
def ofShort? : Char → Option Flag
  | 'e' => some .expr
  | 't' => some .table
  | 'f' => some .form
  | 'g' => some .gates
  | 'w' => some .writeTable
  | 'v' => some .verbose
  | 'V' => some .version
  | _ => none

/-- Whether an option has a value. -/
def takesValue : Flag → Bool
  | .noPeephole => false
  | .verbose => false
  | .version => false
  | _ => true

end Flag

/-- The gate libraries that can be named on the command line. -/
inductive LibraryName
  | basic
  | nand
  | nor
  | custom
  deriving DecidableEq, Repr

/-- The library of the given name. -/
def LibraryName.ofText? : String → Option LibraryName
  | "default" => some .basic
  | "nand" => some .nand
  | "nor" => some .nor
  | "custom" => some .custom
  | _ => none

/-- The form of the given name. -/
def formOfText? : String → Option Form
  | "sop" => some .sumOfProducts
  | "pos" => some .productOfSums
  | _ => none

/-- The reasons for which arguments are not accepted. -/
inductive UsageError
  | unknownOption (text : String)
  | unexpectedArgument (text : String)
  | missingValue (flag : Flag)
  | unexpectedValue (flag : Flag)
  | invalidValue (flag : Flag) (value : String)
  | repeatedOption (flag : Flag)
  | conflictingSources
  deriving DecidableEq, Repr

/-- The options read so far. -/
structure Settings where
  expr? : Option String := none
  table? : Option String := none
  form? : Option Form := none
  library? : Option LibraryName := none
  enabled : List String := []
  outputName? : Option String := none
  keepNegations : Bool := false
  writeTable? : Option String := none
  verbosity : Nat := 0
  deriving DecidableEq, Repr, Inhabited

/-- What the arguments ask for. -/
inductive Request
  | version
  | synthesize (settings : Settings)
  deriving DecidableEq, Repr

namespace Settings

/-- A value for an option that can be given once. -/
def once {α : Type} (flag : Flag) (earlier : Option α) (value : α) :
    Except UsageError (Option α) :=
  match earlier with
  | none => .ok (some value)
  | some _ => .error (.repeatedOption flag)

/-- The value of an option, if it has a meaning. -/
def meaning {α : Type} (flag : Flag) (read? : String → Option α) (value : String) :
    Except UsageError α :=
  match read? value with
  | some meaning => .ok meaning
  | none => .error (.invalidValue flag value)

/-- A path must not be empty. -/
def path? (value : String) : Option String :=
  if value.isEmpty then none else some value

/-- The parts of a value between its commas. -/
def commaParts (value : String) : List String :=
  (Text.pieces (· == ',') value.toList).map String.ofList

/-- Take an option with its value; options without a value ignore it. -/
def take (settings : Settings) (flag : Flag) (value : String) : Except UsageError Settings := do
  match flag with
  | .expr => return { settings with expr? := ← once flag settings.expr? value }
  | .table =>
      let path ← meaning flag path? value
      return { settings with table? := ← once flag settings.table? path }
  | .form =>
      let form ← meaning flag formOfText? value
      return { settings with form? := ← once flag settings.form? form }
  | .gates =>
      let library ← meaning flag LibraryName.ofText? value
      return { settings with library? := ← once flag settings.library? library }
  | .enable => return { settings with enabled := settings.enabled ++ commaParts value }
  | .outputName => return { settings with outputName? := ← once flag settings.outputName? value }
  | .noPeephole =>
      if settings.keepNegations then throw (.repeatedOption flag)
      return { settings with keepNegations := true }
  | .writeTable =>
      let path ← meaning flag path? value
      return { settings with writeTable? := ← once flag settings.writeTable? path }
  | .verbose => return { settings with verbosity := settings.verbosity + 1 }
  | .version => return settings

end Settings

/-- What is known after an argument has been read. -/
inductive Progress
  | version
  | settled (settings : Settings)
  | awaiting (settings : Settings) (flag : Flag)
  deriving DecidableEq, Repr

/-- Take an option without a value. -/
def takeSwitch (settings : Settings) (flag : Flag) : Except UsageError Progress :=
  if flag = .version then .ok .version else (settings.take flag "").map .settled

/-- Read a long option, given the characters after the dashes. -/
def readLong (settings : Settings) (chars : List Char) : Except UsageError Progress :=
  let name := String.ofList (chars.takeWhile (· ≠ '='))
  match Flag.ofLong? name, chars.dropWhile (· ≠ '=') with
  | none, _ => .error (.unknownOption name)
  | some flag, [] =>
      if flag.takesValue then .ok (.awaiting settings flag) else takeSwitch settings flag
  | some flag, _ :: value =>
      if flag.takesValue then (settings.take flag (String.ofList value)).map .settled
      else .error (.unexpectedValue flag)

/-- The value that directly follows the letter of an option. -/
def attachedValue : List Char → String
  | '=' :: value => String.ofList value
  | value => String.ofList value

/-- Read option letters that are run together. -/
def readShort (settings : Settings) : List Char → Except UsageError Progress
  | [] => .ok (.settled settings)
  | c :: rest =>
      match Flag.ofShort? c with
      | none => .error (.unknownOption c.toString)
      | some flag =>
          if flag.takesValue then
            if rest.isEmpty then .ok (.awaiting settings flag)
            else (settings.take flag (attachedValue rest)).map .settled
          else do
            match ← takeSwitch settings flag with
            | .settled next => readShort next rest
            | other => return other

/-- An argument that starts with a dash looks like an option, unless it is the
dash alone. -/
def looksLikeOption (argument : String) : Bool :=
  match argument.toList with
  | '-' :: _ :: _ => true
  | _ => false

/-- Read one argument. -/
def readArgument (settings : Settings) (argument : String) : Except UsageError Progress :=
  match argument.toList with
  | '-' :: '-' :: chars => readLong settings chars
  | '-' :: c :: chars => readShort settings (c :: chars)
  | _ => .error (.unexpectedArgument argument)

/-- Accept the options after the last argument: a function comes from one
source. -/
def conclude (settings : Settings) : Except UsageError Request :=
  if settings.expr?.isSome && settings.table?.isSome then .error .conflictingSources
  else .ok (.synthesize settings)

/-- Read the remaining arguments.  Two dashes end the options, and nothing may
follow them. -/
def readFrom (settings : Settings) : List String → Except UsageError Request
  | [] => conclude settings
  | argument :: rest =>
      if argument = "--" then
        match rest with
        | [] => conclude settings
        | extra :: _ => .error (.unexpectedArgument extra)
      else
        match readArgument settings argument with
        | .error error => .error error
        | .ok .version => .ok .version
        | .ok (.settled next) => readFrom next rest
        | .ok (.awaiting next flag) =>
            match rest with
            | [] => .error (.missingValue flag)
            | value :: others =>
                if looksLikeOption value then .error (.missingValue flag)
                else
                  match next.take flag value with
                  | .error error => .error error
                  | .ok taken => readFrom taken others

/-- Read the arguments. -/
def read (arguments : List String) : Except UsageError Request :=
  readFrom {} arguments

end Switching.CommandLine
