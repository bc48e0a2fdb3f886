import StyleValues.CommandLine.Arguments
import StyleValues.CommandLine.Run

/-!
# The program

The effects of an invocation, performed on the real streams and files.
-/

set_option autoImplicit false

namespace StyleValues.Program

def systemText : IO.Error → String
  | .alreadyExists _ code details | .otherError code details | .resourceBusy code details
  | .resourceVanished code details | .unsupportedOperation code details
  | .hardwareFault code details | .unsatisfiedConstraints code details
  | .illegalOperation code details | .protocolError code details | .timeExpired code details
  | .interrupted _ code details | .noFileOrDirectory _ code details
  | .invalidArgument _ code details | .permissionDenied _ code details
  | .resourceExhausted _ code details | .inappropriateType _ code details
  | .noSuchThing _ code details => details ++ " (os error " ++ toString code ++ ")"
  | .unexpectedEof => "unexpected end of file"
  | .userError text => text

def readBytes (path : Text) : IO ByteArray := do
  if isStandard path then (← IO.getStdin).readBinToEnd
  else IO.FS.withFile (String.ofList path) .read fun file => file.readBinToEnd

def read (path : Text) : IO Text := do
  match String.fromUTF8? (← readBytes path) with
  | some s => return s.toList
  | none => throw (.userError (String.ofList DiskFault.notText.message))

def write (t : Text) : Sink → IO Unit
  | .standard => do
    let out ← IO.getStdout
    out.putStr (String.ofList t)
    out.flush
  | .file path => IO.FS.writeFile (String.ofList path) (String.ofList t)

def record (log : Option Text) (r : Record) : IO Unit := do
  match log with
  | none => return
  | some path =>
    try
      IO.FS.withFile (String.ofList path) .append fun file => file.putStr (String.ofList r.line)
    catch _ => return

def perform (log : Option Text) : List Effect → IO (Option Failure)
  | [] => return none
  | .record r :: rest => do
    record log r
    perform log rest
  | .warn line :: rest => do
    IO.eprint (String.ofList line)
    perform log rest
  | .write sink t :: rest => do
    write t sink
    perform log rest
  | .fail f :: _ => return some f

def attempt (c : Command) : IO (Option Failure) := do
  match c.options.scopedMessages with
  | .error f => return some f
  | .ok input => perform c.options.log (c.effects input (← read c.input))

def run (c : Command) : IO UInt32 := do
  try
    match ← attempt c with
    | none => return 0
    | some f =>
      IO.eprint (String.ofList (errorLine f))
      return 1
  catch e =>
    IO.eprintln ("error: I/O error: " ++ systemText e)
    return 1

def usage : String :=
  "usage: icss-values [-o FILE] [--messages FILE] [--log FILE] [--prefix TEXT]\n" ++
  "    [--plugin-name NAME] [--no-selectors] [--scoped NAME=VALUE]... [--at-rule NAME]... INPUT\n" ++
  "A dash stands for a standard stream.\n"

end StyleValues.Program

def main (args : List String) : IO UInt32 := do
  match StyleValues.Command.ofArguments? (args.map String.toList) with
  | some c => StyleValues.Program.run c
  | none =>
    IO.eprint StyleValues.Program.usage
    return 2
