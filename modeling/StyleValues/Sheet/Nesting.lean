import StyleValues.Sheet.Segment

/-!
# Nesting

The segments of a text are put together into a tree. A stack holds the blocks
that are still open; a closing brace takes the innermost of them off. The
position in the text is the byte length of the segments put in place, since
these print as they were read.
-/

set_option autoImplicit false

namespace StyleValues

structure OpenBlock where
  head : Head
  layout : Layout
  /-- The byte offset of the opening brace. -/
  brace : Nat
  /-- The nodes in front of the block. -/
  earlier : List Node
deriving Repr

structure Nesting where
  /-- The open blocks, the innermost first. -/
  blocks : List OpenBlock := []
  /-- The nodes read so far in the innermost open block. -/
  nodes : List Node := []
  position : Nat := 0
deriving Repr

namespace Nesting

def advance (n : Nesting) (segment : Segment) : Nesting :=
  { n with position := n.position + segment.print.byteLength }

def addLeaf (n : Nesting) (content : Leaf) (layout : Layout) : Nesting :=
  { n with nodes := n.nodes ++ [.leaf content layout] }

def openBlock (n : Nesting) (head : Head) (layout : Layout) : Nesting :=
  { n with
    blocks :=
      { head, layout, earlier := n.nodes
        brace := n.position + (head.print layout).byteLength } :: n.blocks
    nodes := [] }

def closeBlock (n : Nesting) (before : Text) : Except Fault Nesting :=
  match n.blocks with
  | [] => .error (.unexpectedCloseBrace (n.position + before.byteLength))
  | block :: outer =>
    .ok { n with
      blocks := outer
      nodes := block.earlier ++ [.block block.head n.nodes { block.layout with after := before }] }

def add (n : Nesting) : Segment → Except Fault Nesting
  | .leaf content layout => .ok ((n.addLeaf content layout).advance (.leaf content layout))
  | .opening head layout => .ok ((n.openBlock head layout).advance (.opening head layout))
  | .closing before => (n.closeBlock before).map fun m => m.advance (.closing before)

def addAll (n : Nesting) : List Segment → Except Fault Nesting
  | [] => .ok n
  | segment :: rest =>
    match n.add segment with
    | .ok m => m.addAll rest
    | .error fault => .error fault

theorem addAll_append (n : Nesting) (s t : List Segment) :
    n.addAll (s ++ t) =
      match n.addAll s with
      | .ok m => m.addAll t
      | .error fault => .error fault := by
  induction s generalizing n with
  | nil => rfl
  | cons segment s ih =>
    rw [List.cons_append, addAll, addAll]
    cases n.add segment with
    | ok m => exact ih m
    | error fault => rfl

def finish (n : Nesting) : Ending → Except Fault Stylesheet
  | .broken fault => .error (fault.shift n.position)
  | .finished after =>
    match n.blocks with
    | [] => .ok { nodes := n.nodes, after }
    | block :: _ => .error (.unclosedBlock block.brace)

end Nesting

/-- Reads a style sheet, or says what is wrong with it and where. -/
def parse (s : Text) : Except Fault Stylesheet :=
  let start : Nesting := {}
  match start.addAll (segments s).1 with
  | .ok n => n.finish (segments s).2
  | .error fault => .error fault

end StyleValues
