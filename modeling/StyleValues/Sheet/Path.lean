import StyleValues.Sheet.Node

/-!
# Paths

A path names a node by its index in every sibling list on the way down. The
empty path names nothing, and a leaf has no siblings below it.
-/

set_option autoImplicit false

namespace StyleValues

abbrev Path := List Nat

def nodeAt? : List Node → Path → Option Node
  | _, [] => none
  | nodes, [i] => nodes[i]?
  | nodes, i :: j :: path =>
    match nodes[i]?.bind Node.children? with
    | some children => nodeAt? children (j :: path)
    | none => none

/-- Edits the sibling list that holds the last index of a path, and passes on
what the edit gave back. Nothing happens if the path leads nowhere or the edit refuses. -/
def editAt? {α : Type} (edit : List Node → Nat → Option (α × List Node)) :
    List Node → Path → Option (α × List Node)
  | _, [] => none
  | nodes, [i] => edit nodes i
  | nodes, i :: j :: path =>
    match nodes[i]? with
    | some (.block head children layout) =>
      match editAt? edit children (j :: path) with
      | some (result, changed) => some (result, nodes.set i (.block head changed layout))
      | none => none
    | _ => none

/-- Takes the node at a path out of the tree. Its later siblings move up by one. -/
def extractAt? : List Node → Path → Option (Node × List Node) :=
  editAt? fun siblings i => siblings[i]?.map fun n => (n, siblings.eraseIdx i)

/-- Puts a node at a path, in front of the sibling that stands there or behind the last one. -/
def insertAt? (n : Node) (nodes : List Node) (path : Path) : Option (List Node) :=
  (editAt? (fun siblings i =>
    if i ≤ siblings.length then some ((), siblings.insertIdx i n) else none) nodes path).map
      Prod.snd

def modifyAt? (f : Node → Option Node) (nodes : List Node) (path : Path) :
    Option (Node × List Node) :=
  editAt? (fun siblings i => (siblings[i]?.bind f).map fun n => (n, siblings.set i n)) nodes path

def removeAt (nodes : List Node) (path : Path) : List Node :=
  match extractAt? nodes path with
  | some (_, rest) => rest
  | none => nodes

mutual

def Node.atRulePaths (name : Text) : Node → List Path
  | .leaf content layout => if (Node.leaf content layout).isAtRule name then [[]] else []
  | .block head children layout =>
    (if (Node.block head children layout).isAtRule name then [[]] else []) ++
      StyleValues.atRulePaths name children

/-- The paths to all at-rules of that name, in document order. -/
def atRulePaths (name : Text) : List Node → List Path
  | [] => []
  | n :: rest =>
    (n.atRulePaths name).map (0 :: ·) ++
      (StyleValues.atRulePaths name rest).map (List.modifyHead (· + 1))

end

end StyleValues
