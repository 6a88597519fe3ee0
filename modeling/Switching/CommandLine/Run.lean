import Switching.Circuit.Tree
import Switching.CommandLine.Arguments
import Switching.CommandLine.FileTree
import Switching.Synthesis
import Switching.Pla.Reader
import Switching.Pla.Writer

/-!
# Running the command line

A run takes the settings and the contents of the table file, if one is named,
and gives the text to print, the errors to report and the file to write.  In a
file tree it also reads the one file and writes the other.
-/

namespace Switching.CommandLine

/-- The result of a run: the exit code, the printed text, the chain of errors
from the outermost to the innermost one, and the file to write, as a path and
its contents. -/
structure Outcome where
  code : Nat
  output : String := ""
  errors : List String := []
  file? : Option (String × String) := none
  deriving DecidableEq, Repr

/-- The result of a run that ends with a chain of errors. -/
def Outcome.failed (errors : List String) : Outcome :=
  { code := 1, errors }

/-- The result of a run whose arguments are not accepted. -/
def Outcome.misused : Outcome :=
  { code := 2 }

/-- The line that names the program and its version. -/
def versionLine : String :=
  "logic-synth 0.1.0\n"

/-- The chain of errors of a failure. -/
def failureChain (failure : Failure) : List String :=
  failure.report :: failure.causes

/-- The chain of errors for a table file that cannot be read. -/
def readChain (path : String) (error : Pla.ReadError) : List String :=
  ["Error reading PLA file '" ++ path ++ "'", error.message, error.cause]

/-- The chain of errors for a table file that cannot be written. -/
def writeChain (path : String) (fault : Pla.StreamFault) : List String :=
  ["Error writing PLA file '" ++ path ++ "'", (Pla.WriteError.mk fault).message, fault.message]

/-- The result of a run whose file cannot be written.  What has been printed
stays printed. -/
def Outcome.refused (outcome : Outcome) (path : String) (fault : Pla.StreamFault) : Outcome :=
  { code := 1, output := outcome.output, errors := writeChain path fault }

/-- The gate library that the settings name.  The enabled gates are read for
the custom library only. -/
def Settings.library (settings : Settings) : Except (List String) GateLibrary :=
  match settings.library?.getD .basic with
  | .basic => .ok .basic
  | .nand => .ok .nand
  | .nor => .ok .nor
  | .custom =>
      match GateSet.ofNames settings.enabled with
      | .ok gates => .ok (.custom gates)
      | .error error => .error [error.message]

/-- The function that the settings name. -/
def Settings.source (settings : Settings) (contents : Except Pla.StreamFault ByteArray) :
    Except (List String) Source :=
  match settings.expr?, settings.table? with
  | some text, _ => .ok (.expression text)
  | none, some path =>
      match contents.mapError Pla.ReadError.stream >>= Pla.readBytes with
      | .ok table => .ok (.table table)
      | .error error => .error (readChain path error)
  | none, none => .error ["either --expr or --table is required"]

/-- The choices that the settings make for a synthesis run. -/
def Settings.options (settings : Settings) (library : GateLibrary) : Options :=
  { form := settings.form?.getD .sumOfProducts
    library
    peephole := !settings.keepNegations
    outputName := settings.outputName?.getD "Y" }

/-- The report of a synthesis run: the minimized outputs, the size of the
circuit and the circuit as one expression per output. -/
def report (synthesis : Synthesis) (trees : List (String × CircuitTree)) : String :=
  let forms := synthesis.minimization.outputs.map fun output =>
    output.name ++ " = " ++ output.text ++ "\n"
  let expressions := trees.map fun (name, tree) => "  " ++ name ++ " = " ++ tree.render ++ "\n"
  String.join forms ++ s!"\ncircuit ({synthesis.circuit.gateCount} gates):\n" ++
    String.join expressions

/-- Run with the given settings.  The gate library is settled first, then the
source is read, then the function is synthesized. -/
def Settings.synthesize (settings : Settings) (contents : Except Pla.StreamFault ByteArray) :
    Except (List String) Outcome := do
  let library ← settings.library
  let source ← settings.source contents
  let synthesis ← (Switching.synthesize source (settings.options library)).mapError failureChain
  let trees ← synthesis.circuit.outputTrees.mapError fun error =>
    failureChain (.synthesis error)
  return { code := 0
           output := report synthesis trees
           file? := settings.writeTable?.map fun path => (path, Pla.write synthesis.table) }

/-- Answer a request. -/
def Request.run (contents : Except Pla.StreamFault ByteArray) : Request → Outcome
  | .version => { code := 0, output := versionLine }
  | .synthesize settings =>
      match settings.synthesize contents with
      | .ok outcome => outcome
      | .error errors => .failed errors

/-- The path of the table file that a request reads, if it reads one. -/
def Request.tablePath? : Request → Option String
  | .version => none
  | .synthesize settings => if settings.expr?.isSome then none else settings.table?

/-- Answer a request in a file tree, and give the tree afterwards. -/
def Request.runIn (tree : FileTree) (request : Request) : Outcome × FileTree :=
  let contents := match request.tablePath? with
    | none => .error .notFound
    | some path => tree.read path
  let outcome := request.run contents
  match outcome.file? with
  | none => (outcome, tree)
  | some (path, written) =>
      match tree.write path written.toUTF8 with
      | .ok next => (outcome, next)
      | .error fault => (outcome.refused path fault, tree)

/-- Run with the given arguments in a file tree, and give the tree
afterwards. -/
def run (arguments : List String) (tree : FileTree) : Outcome × FileTree :=
  match read arguments with
  | .error _ => (.misused, tree)
  | .ok request => request.runIn tree

end Switching.CommandLine
