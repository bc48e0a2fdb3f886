import StyleValues.Sheet.Node

/-!
# Printing a style sheet

Every part of a node is printed as it stands, each between the pieces of its
layout. Nothing is added but the marks that the node's kind implies.
-/

set_option autoImplicit false

namespace StyleValues

def Layout.terminator (l : Layout) : Text := if l.semicolon then [';'] else []

def Leaf.print : Leaf → Layout → Text
  | .atRule name params, l =>
    l.before ++ '@' :: (name ++ (l.afterName ++ (params ++ (l.between ++ l.terminator))))
  | .declaration property value, l =>
    l.before ++ (property ++ (l.between ++ (value ++ (l.after ++ l.terminator))))
  | .comment text, l => l.before ++ ('/' :: '*' :: (text ++ ['*', '/']))

def Head.print : Head → Layout → Text
  | .atRule name params, l => l.before ++ '@' :: (name ++ (l.afterName ++ (params ++ l.between)))
  | .rule selector, l => l.before ++ (selector ++ l.between)

mutual

def Node.print : Node → Text
  | .leaf content layout => content.print layout
  | .block head children layout =>
    head.print layout ++ '{' :: (printAll children ++ (layout.after ++ ['}']))

def printAll : List Node → Text
  | [] => []
  | n :: rest => n.print ++ printAll rest

end

theorem printAll_append (ms ns : List Node) : printAll (ms ++ ns) = printAll ms ++ printAll ns := by
  induction ms with
  | nil => simp [printAll]
  | cons m ms ih => simp [printAll, ih]

def Stylesheet.print (s : Stylesheet) : Text := printAll s.nodes ++ s.after

end StyleValues
