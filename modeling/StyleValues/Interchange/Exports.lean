import StyleValues.Bindings
import StyleValues.Interchange.Entries
import StyleValues.Interchange.Selector

/-!
# The export block

The first export block at the top level offers every bound name. An entry that
is there keeps its place and takes the new value; a name without an entry gets
one behind all others.
-/

set_option autoImplicit false

namespace StyleValues

def isExportBlock (n : Node) : Bool := n.selector?.any isExportSelector

def findExport? (nodes : List Node) : Option Nat := nodes.findIdx? isExportBlock

def setDeclared? (property value : Text) : List Node → Option (List Node)
  | [] => none
  | .leaf (.declaration p v) layout :: rest =>
    if p = property then some (.leaf (.declaration p value) layout :: rest)
    else (setDeclared? property value rest).map (.leaf (.declaration p v) layout :: ·)
  | n :: rest => (setDeclared? property value rest).map (n :: ·)

/-- Writes one binding into the children of a block. The flag says whether an
entry was added to them. -/
def mergeBinding (indent : Option Text) (state : List Node × Bool) (b : Binding) :
    List Node × Bool :=
  match setDeclared? b.name b.value state.1 with
  | some children => (children, state.2)
  | none => (state.1 ++ [newEntry indent b.name b.value], true)

def Node.mergeBindings (bs : Bindings) : Node → Node
  | .block (.rule selector) children layout =>
    let merged := bs.entries.foldl (mergeBinding (lastIndent? children)) (children, false)
    if merged.2 then extendedRule selector merged.1 layout
    else .block (.rule selector) merged.1 layout
  | n => n

def exportRule (bs : Bindings) : Node :=
  .rule exportSelector (bs.entries.map fun b => .declaration b.name b.value)

end StyleValues
