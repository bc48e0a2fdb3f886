import StyleValues.Sheet.Node

/-!
# Walking through a style sheet

Nodes are visited in document order, a block before the nodes inside it. A
revision changes nodes on such a walk; the nodes it adds to a block are
visited like those that were there.
-/

set_option autoImplicit false

namespace StyleValues

mutual

def Node.preorder : Node → List Node
  | .leaf content layout => [.leaf content layout]
  | .block head children layout => .block head children layout :: preorder children

def preorder : List Node → List Node
  | [] => []
  | n :: rest => n.preorder ++ preorder rest

end

theorem preorder_append (ms ns : List Node) : preorder (ms ++ ns) = preorder ms ++ preorder ns := by
  induction ms with
  | nil => simp [preorder]
  | cons m ms ih => simp [preorder, ih]

structure Revision where
  leaf : Leaf → Leaf
  head : Head → Head
  /-- The leaves added to the end of a block with that new head. -/
  added : Head → List (Leaf × Layout)

namespace Revision

def addedNodes (r : Revision) (head : Head) : List Node :=
  (r.added head).map fun entry => .leaf (r.leaf entry.1) entry.2

mutual

def apply (r : Revision) : Node → Node
  | .leaf content layout => .leaf (r.leaf content) layout
  | .block head children layout =>
    .block (r.head head) (r.applyAll children ++ r.addedNodes (r.head head)) layout

def applyAll (r : Revision) : List Node → List Node
  | [] => []
  | n :: rest => r.apply n :: r.applyAll rest

end

end Revision

end StyleValues
