import StyleValues.Sheet.Node

/-!
# Entries of a block

Import and export blocks are rules whose declarations are their entries. New
entries stand behind the old children and are indented like the last entry
that was there. Every declaration in front of another child then ends with a
semicolon of its own, so that no entry runs on into the next.
-/

set_option autoImplicit false

namespace StyleValues

def lastIndent? (children : List Node) : Option Text :=
  (children.filterMap fun
    | .leaf (.declaration _ _) layout => some layout.before
    | _ => none).getLast?

def newEntry (indent : Option Text) (name value : Text) : Node :=
  .leaf (.declaration name value)
    { Layout.declaration with before := indent.getD Layout.declaration.before }

def Node.terminated : Node → Node
  | .leaf (.declaration property value) layout =>
    .leaf (.declaration property value) { layout with semicolon := true }
  | n => n

/-- Gives every declaration but a last one its own semicolon. -/
def terminateAll : List Node → List Node
  | [] => []
  | [n] => [n]
  | m :: n :: rest => m.terminated :: terminateAll (n :: rest)

/-- The layout of a block that got new entries: its closing brace does not
touch the last of them. -/
def Layout.extended (children : List Node) (layout : Layout) : Layout :=
  if layout.after.isEmpty && !children.isEmpty then { layout with after := ['\n'] } else layout

def extendedRule (selector : Text) (children : List Node) (layout : Layout) : Node :=
  .block (.rule selector) (terminateAll children) (layout.extended children)

def Node.addEntries (entries : List (Text × Text)) : Node → Node
  | .block (.rule selector) children layout =>
    extendedRule selector
      (children ++ entries.map fun entry => newEntry (lastIndent? children) entry.1 entry.2) layout
  | n => n

end StyleValues
