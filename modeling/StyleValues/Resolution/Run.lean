import StyleValues.Interchange.Message
import StyleValues.Resolution.Replacement
import StyleValues.Resolution.Rewrite
import StyleValues.Sheet.Nesting

/-!
# Resolution of a document

One run reads the statements, rewrites the sheet and replaces what they bind.
The values that are published are those that the sheet shows: the redirects
apply to them before any block is written.
-/

set_option autoImplicit false

namespace StyleValues

def redirectOf? (bs : Bindings) : Message → Option (Text × Text)
  | .scopedName name value => (bs.value? name).map fun target => (value, target)
  | .boundName _ _ _ => none

def redirectsOf (bs : Bindings) (input : List Message) : Redirects :=
  input.filterMap (redirectOf? bs)

structure Report where
  messages : List Message := []
  warnings : List Warning := []
deriving DecidableEq, Repr

def collect (config : Config) (sheet : Stylesheet) : Progress :=
  (Progress.start config.stem sheet.nodes).processAll (statementsIn sheet.nodes)

def publish (config : Config) (bs : Bindings) : List Message :=
  bs.entries.map fun b => .boundName config.plugin b.name b.value

def published (config : Config) (input : List Message) (sheet : Stylesheet) : Bindings :=
  let collected := (collect config sheet).bindings
  collected.mapValues (redirect (redirectsOf collected input))

def resolve (config : Config) (input : List Message) (sheet : Stylesheet) : Stylesheet × Report :=
  let progress := collect config sheet
  let bindings := published config input sheet
  let replacement : Replacement :=
    { bindings, redirects := redirectsOf progress.bindings input, config }
  let rewritten := rewrite (statementsIn sheet.nodes) bindings progress.imports sheet.nodes
  ({ sheet with nodes := replacement.apply rewritten },
    { messages := publish config bindings, warnings := progress.warnings })

structure Resolved where
  css : Text
  report : Report
deriving DecidableEq, Repr

def Fault.report (f : Fault) : Text := "CSS syntax error: ".toList ++ f.message

def resolveText (config : Config) (input : List Message) (source : Text) : Except Fault Resolved :=
  match parse source with
  | .error fault => .error fault
  | .ok sheet =>
    let result := resolve config input sheet
    .ok { css := result.1.print, report := result.2 }

end StyleValues
