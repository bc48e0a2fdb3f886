import StyleValues.CommandLine.Disk
import StyleValues.Resolution.Run

/-!
# Failures of an invocation

A failure is a cause; `Failure.message` has the words for it. Warnings are no failures.
-/

set_option autoImplicit false

namespace StyleValues

inductive Failure where
  /-- An argument for a scoped name has not the form `name=value`. -/
  | scopedArgument (argument : Text)
  | disk (fault : DiskFault)
  | sheet (fault : Fault)
deriving DecidableEq, Repr

def Failure.message : Failure → Text
  | .scopedArgument argument =>
    "Invalid --scoped argument ".toList ++ argument.quoted ++ ": expected name=value".toList
  | .disk fault => "I/O error: ".toList ++ fault.message
  | .sheet fault => fault.report

end StyleValues
