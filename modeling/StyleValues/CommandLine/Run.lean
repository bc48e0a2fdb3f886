import StyleValues.CommandLine.Options
import StyleValues.Interchange.Json
import StyleValues.Resolution.Trace

/-!
# Invocations

An invocation reads one sheet, and what it does then is a list of effects that
the text of the sheet decides. The effects are performed in their order until
one fails. Every effect that writes a result stands behind all checks.
-/

set_option autoImplicit false

namespace StyleValues

inductive Sink where
  | standard
  | file (path : Text)
deriving DecidableEq, Repr

def isStandard (path : Text) : Bool := path == ['-']

def Sink.ofPath (path : Text) : Sink := if isStandard path then .standard else .file path

inductive Effect where
  /-- Appends a record to the log, if there is one. -/
  | record (r : Record)
  /-- Writes a line to the standard error stream. -/
  | warn (line : Text)
  | write (sink : Sink) (t : Text)
  | fail (f : Failure)
deriving DecidableEq, Repr

def notice (text : Text) : Record := { level := .info, part := .commandLine, text }

def processing (input source : Text) : Record :=
  notice ("processing ".toList ++ input ++ " (".toList ++ Text.decimal source.byteLength ++
    " bytes)".toList)

def finished (r : Report) : Record :=
  notice ("done: ".toList ++ Text.decimal r.messages.length ++ " messages, ".toList ++
    Text.decimal r.warnings.length ++ " warnings".toList)

def warningLine (w : Warning) : Text := "warning: ".toList ++ w.message ++ ['\n']

def errorLine (f : Failure) : Text := "error: ".toList ++ f.message ++ ['\n']

def Options.delivery (o : Options) (r : Resolved) : List Effect :=
  r.report.warnings.map (fun w => .warn (warningLine w)) ++
    (.write ((o.output.map Sink.ofPath).getD .standard) r.css ::
      (o.messages.toList.map (fun path =>
          .write (Sink.ofPath path) (Json.messages r.report.messages ++ ['\n'])) ++
        [.record (finished r.report)]))

def Command.effects (c : Command) (input : List Message) (source : Text) : List Effect :=
  .record (processing c.input source) ::
    match parse source with
    | .error fault => [.fail (.sheet fault)]
    | .ok sheet =>
      let result := resolve c.options.config input sheet
      (Trace.ofRun c.options.config input sheet).map .record ++
        c.options.delivery { css := result.1.print, report := result.2 }

structure Host where
  disk : Disk := {}
  /-- What stands on the standard input. -/
  input : Content := .text []
  output : Text := []
  errors : Text := []
deriving DecidableEq, Repr

namespace Host

def read (h : Host) (path : Text) : Except DiskFault Text :=
  if isStandard path then h.input.text? else h.disk.read path

/-- Appends a record to a log. A log that cannot be written is passed over. -/
def record (h : Host) (log : Option Text) (r : Record) : Host :=
  match log with
  | none => h
  | some path =>
    match h.disk.append path r.line with
    | .ok disk => { h with disk }
    | .error _ => h

def write (h : Host) (t : Text) : Sink → Except DiskFault Host
  | .standard => .ok { h with output := h.output ++ t }
  | .file path => (h.disk.write path t).map fun disk => { h with disk }

def perform (log : Option Text) : Host → List Effect → Host × Option Failure
  | h, [] => (h, none)
  | h, .record r :: rest => (h.record log r).perform log rest
  | h, .warn line :: rest => { h with errors := h.errors ++ line }.perform log rest
  | h, .write sink t :: rest =>
    match h.write t sink with
    | .ok next => next.perform log rest
    | .error fault => (h, some (.disk fault))
  | h, .fail f :: _ => (h, some f)

theorem perform_append (log : Option Text) (h : Host) (es fs : List Effect) :
    h.perform log (es ++ fs) =
      match h.perform log es with
      | (next, none) => next.perform log fs
      | (next, some f) => (next, some f) := by
  induction es generalizing h with
  | nil => rfl
  | cons e es ih =>
    cases e with
    | record r => exact ih _
    | warn line => exact ih _
    | fail f => rfl
    | write sink t =>
      simp only [List.cons_append, perform]
      split
      · exact ih _
      · rfl

end Host

namespace Command

/-- Performs a command. The scoped arguments are checked before anything is read. -/
def attempt (c : Command) (h : Host) : Host × Option Failure :=
  match c.options.scopedMessages with
  | .error f => (h, some f)
  | .ok input =>
    match h.read c.input with
    | .error fault => (h, some (.disk fault))
    | .ok source => h.perform c.options.log (c.effects input source)

/-- Performs a command, reports its failure and gives the exit code. -/
def run (c : Command) (h : Host) : Host × Nat :=
  match c.attempt h with
  | (h, none) => (h, 0)
  | (h, some f) => ({ h with errors := h.errors ++ errorLine f }, 1)

end Command

end StyleValues
