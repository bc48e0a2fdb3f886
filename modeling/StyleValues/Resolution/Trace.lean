import StyleValues.Resolution.Run
import StyleValues.Text.Quoted

/-!
# The trace of a run

A run can be followed by the records of what it decided, in the order in which
it did. The trace is read off the same steps that the run takes and has no
part in them.
-/

set_option autoImplicit false

namespace StyleValues

inductive Level where
  | info
  | warn
  | debug
deriving DecidableEq, Repr

def Level.name : Level → Text
  | .info => "INFO".toList
  | .warn => "WARN".toList
  | .debug => "DEBUG".toList

inductive Part where
  | commandLine
  | resolution
  | imports
  | exports
  | warnings
deriving DecidableEq, Repr

def Part.name : Part → Text
  | .commandLine => "icss_values_rs::cli".toList
  | .resolution => "icss_values::plugin".toList
  | .imports => "icss_values::imports".toList
  | .exports => "icss_values::exports".toList
  | .warnings => "icss_values::diagnostics".toList

structure Record where
  level : Level
  part : Part
  text : Text
deriving DecidableEq, Repr

def Record.line (r : Record) : Text :=
  '[' :: r.level.name ++ "] ".toList ++ r.part.name ++ ": ".toList ++ r.text ++ ['\n']

namespace Trace

open Text

def debug (part : Part) (text : Text) : Record := { level := .debug, part, text }

def warned (kind : WarningKind) : Record :=
  { level := .warn, part := .warnings, text := Warning.message { kind } }

def found (n : Nat) : Record :=
  debug .resolution ("found ".toList ++ decimal n ++ " @value statements".toList)

def rejected (params : Text) (e : Rejection) : Record :=
  debug .resolution ("rejecting @value ".toList ++ quoted params ++ ": ".toList ++ e.message)

def defining (name value : Text) : Record :=
  debug .resolution ("defining ".toList ++ name ++ " = ".toList ++ value)

def importing (n : ImportedName) (path placeholder : Text) : Record :=
  debug .resolution ("importing ".toList ++ n.source ++ " as ".toList ++ n.name ++
    " from ".toList ++ path ++ " (".toList ++ placeholder ++ ")".toList)

def redirecting (name scopedName target : Text) : Record :=
  debug .resolution ("redirecting scoped ".toList ++ scopedName ++ " (".toList ++ name ++
    ") -> ".toList ++ target)

def appending (b : ImportBlock) : Record :=
  debug .imports ("appending ".toList ++ decimal b.entries.length ++
    " entries to existing :import(".toList ++ b.path ++ ")".toList)

def creatingImport (b : ImportBlock) : Record :=
  debug .imports ("creating :import(".toList ++ b.path ++ ") with ".toList ++
    decimal b.entries.length ++ " entries".toList)

def updating (b : Binding) : Record :=
  debug .exports ("updating :export entry ".toList ++ b.name ++ " -> ".toList ++ b.value)

def creatingExport (n : Nat) : Record :=
  debug .resolution ("creating :export with ".toList ++ decimal n ++ " entries".toList)

def ofNames (s : Statement) (path : Text) : Progress → List ImportedName → List Record
  | _, [] => []
  | p, n :: rest =>
    importing n path (p.imports.register path n.source n.name s.anchor).1 ::
      ((p.doubts n.name).map warned ++ ofNames s path (p.importName s path n) rest)

def ofStatement (p : Progress) (s : Statement) : List Record :=
  match Definition.read s.params with
  | .error e => [rejected s.params e, warned (.invalidDefinition s.params)]
  | .ok (.value name value) =>
    defining name (p.bindings.resolve value) :: (p.doubts name).map warned
  | .ok (.imports path names) => ofNames s path p names

def ofStatements : Progress → List Statement → List Record
  | _, [] => []
  | p, s :: rest => ofStatement p s ++ ofStatements (p.process s) rest

def ofMessage (bs : Bindings) : Message → List Record
  | .scopedName name value =>
    match bs.value? name with
    | some target => [redirecting name value target]
    | none => []
  | .boundName _ _ _ => []

def changedIn (bs : Bindings) (children : List Node) : List Binding :=
  bs.entries.filter fun b =>
    ((declarationsIn children).lookup b.name).any fun value => value != b.value

def ofExport (nodes : List Node) (bs : Bindings) : List Record :=
  match (findExport? nodes).bind fun i => nodes[i]? with
  | some n => (changedIn bs (n.children?.getD [])).map updating
  | none => []

def ofRewrite (statements : List Statement) (bs : Bindings) (imports : Imports)
    (nodes : List Node) : List Record :=
  (imports.blocks.filter fun b => b.existing.isSome).map appending ++
    (ofExport nodes bs ++
      (imports.newBlocks.map creatingImport ++
        (newExport nodes statements bs).map fun _ => creatingExport bs.size))

def ofRun (config : Config) (input : List Message) (sheet : Stylesheet) : List Record :=
  let statements := statementsIn sheet.nodes
  let progress := collect config sheet
  found statements.length ::
    (ofStatements (.start config.stem sheet.nodes) statements ++
      (input.flatMap (ofMessage progress.bindings) ++
        ofRewrite statements (published config input sheet) progress.imports sheet.nodes))

end Trace

end StyleValues
