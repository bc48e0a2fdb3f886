import StyleValues.Interchange.Exports
import StyleValues.Resolution.Statement

/-!
# Rewriting a document

The statements leave the sheet and the exchange blocks enter it. A new block
stands where the statement stood that called for it, and takes over the
spacing there: that of the first of the statements removed right in front of
it, or else that of the node it is put before.
-/

set_option autoImplicit false

namespace StyleValues

def mergeExport (bs : Bindings) (nodes : List Node) : List Node :=
  match findExport? nodes with
  | some i => nodes.modify i (Node.mergeBindings bs)
  | none => nodes

/-- The new export block with its anchor, the last statement. -/
def newExport (nodes : List Node) (statements : List Statement) (bs : Bindings) :
    List (Nat × Node) :=
  if (findExport? nodes).isSome || bs.isEmpty then []
  else
    match statements.getLast? with
    | some last => [(last.anchor, exportRule bs)]
    | none => []

/-- Removes the nodes at the paths, the last path first, so that the paths
that are still to come keep their meaning. -/
def removePaths (nodes : List Node) (paths : List Path) : List Node :=
  paths.reverse.foldl removeAt nodes

def nestedPaths (statements : List Statement) : List Path :=
  (statements.map Statement.path).filter fun path => decide (1 < path.length)

def isStatementAt (statements : List Statement) (i : Nat) : Bool :=
  statements.any fun s => s.path == [i]

/-- Leaves out the removed nodes and puts in the generated ones, each group in
front of the node with its index. `carried` is the spacing of the statements
removed since the last node that was kept. -/
def weave (generated : Nat → List Node) (removed : Nat → Bool) :
    Nat → Option Text → List Node → List Node
  | _, _, [] => []
  | i, carried, n :: rest =>
    match generated i with
    | [] =>
      if removed i then weave generated removed (i + 1) (carried.or (some n.layout.before)) rest
      else n :: weave generated removed (i + 1) none rest
    | first :: more =>
      first.withBefore (carried.getD n.layout.before) :: more ++
        (if removed i then weave generated removed (i + 1) none rest
        else n.withBefore ['\n'] :: weave generated removed (i + 1) none rest)

def anchoredAt (generated : List (Nat × Node)) (i : Nat) : List Node :=
  (generated.filter fun entry => entry.1 == i).map Prod.snd

def rewrite (statements : List Statement) (bs : Bindings) (imports : Imports)
    (nodes : List Node) : List Node :=
  let generated := imports.newRules ++ newExport nodes statements bs
  let kept := removePaths (mergeExport bs (imports.extendExisting nodes)) (nestedPaths statements)
  weave (anchoredAt generated) (isStatementAt statements) 0 none kept

end StyleValues
