import Contraction.CommandLine

/-!
# The program

Runs the command line on the arguments that the program is given.
-/

namespace Contraction.CommandLine

/-- What is told of arguments that cannot be read. -/
def misuseMessage : String :=
  "einsum-tree: error: the arguments cannot be read\n"

/-- What is told when a command stops. -/
def faultMessage : Fault → String
  | .text error => error.message
  | .setting error => error.message
  | .conversion fault => fault.message
  | .unknownSetting name => unknownSettingMessage name
  | .notLabels => "no list of labels"
  | .notText => "no text"
  | .notLookedUp => "no value that can be looked up"
  | .missingPart => "a part that is needed is missing"

end Contraction.CommandLine

def main (args : List String) : IO UInt32 := do
  match Contraction.CommandLine.run args with
  | .ok response =>
    IO.print response.output
    IO.eprint (response.errors.getD Contraction.CommandLine.misuseMessage)
    return response.code.toUInt32
  | .error fault =>
    IO.eprintln (Contraction.CommandLine.faultMessage fault)
    return 1
