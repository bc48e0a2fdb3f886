import StyleValues.Bindings
import StyleValues.Definition.Grammar
import StyleValues.Interchange.Imports
import StyleValues.Sheet.Path
import StyleValues.Sheet.Printer
import StyleValues.Warning

/-!
# Statements of a document

All `@value` statements of a sheet are read in document order before anything
is changed. A value is resolved with the names that are bound when its
statement is met, so a name defined later does not reach back.
-/

set_option autoImplicit false

namespace StyleValues

structure Statement where
  path : Path
  params : Text
  /-- The statement as it is written, without the white space around it. -/
  source : Text
deriving DecidableEq, Repr

/-- The top-level index of the statement or of the block it stands in. -/
def Statement.anchor (s : Statement) : Nat := s.path.headD 0

def valueKeyword : Text := "value".toList

def Statement.ofNode? (path : Path) (n : Node) : Option Statement :=
  n.params?.map fun params => { path, params, source := n.print.trim }

def statementsIn (nodes : List Node) : List Statement :=
  (atRulePaths valueKeyword nodes).filterMap fun path =>
    (nodeAt? nodes path).bind (Statement.ofNode? path)

structure Progress where
  bindings : Bindings := {}
  imports : Imports
  warnings : List Warning := []
deriving Repr

namespace Progress

def doubts (p : Progress) (name : Text) : List WarningKind :=
  (if name.any (fun c => c == '.' || c == '#') then [.dotOrHash name] else []) ++
    (if (p.bindings.find? name).isSome then [.alreadyDeclared name] else [])

def warn (p : Progress) (s : Statement) (kinds : List WarningKind) : Progress :=
  { p with warnings := p.warnings ++ kinds.map fun kind => { kind, statement := some s.source } }

def define (p : Progress) (s : Statement) (b : Binding) : Progress :=
  { p.warn s (p.doubts b.name) with bindings := p.bindings.define b }

def importName (s : Statement) (path : Text) (p : Progress) (n : ImportedName) : Progress :=
  let token := p.imports.register path n.source n.name s.anchor
  { p with imports := token.2 }.define s ⟨n.name, token.1, .imported path⟩

def process (p : Progress) (s : Statement) : Progress :=
  match Definition.read s.params with
  | .error _ => p.warn s [.invalidDefinition s.params]
  | .ok (.value name value) => p.define s ⟨name, p.bindings.resolve value, .document⟩
  | .ok (.imports path names) => names.foldl (importName s path) p

def processAll (p : Progress) (statements : List Statement) : Progress := statements.foldl process p

theorem processAll_append (p : Progress) (s t : List Statement) :
    p.processAll (s ++ t) = (p.processAll s).processAll t := by
  simp [processAll]

def start (stem : Text) (nodes : List Node) : Progress := { imports := .ofNodes stem nodes }

end Progress

end StyleValues
