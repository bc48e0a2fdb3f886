import StyleValues.Text.Basic

/-!
# Style sheet trees

A style sheet is a list of nodes. A leaf is a statement that ends by itself
or a comment; a block holds nodes of its own. Every node carries the layout
it was read with, which is the text between its parts, so that a tree prints
back as it was written.
-/

set_option autoImplicit false

namespace StyleValues

structure Layout where
  /-- White space and stray semicolons in front of the node. -/
  before : Text := []
  /-- In front of the block, or between a property and its value, colon included. -/
  between : Text := []
  /-- Between the name of an at-rule and its parameters. -/
  afterName : Text := []
  /-- In front of the closing brace of a block, or behind the value of a declaration. -/
  after : Text := []
  /-- Whether the statement ends with a semicolon of its own. -/
  semicolon : Bool := false
deriving DecidableEq, Repr

inductive Leaf where
  | atRule (name params : Text)
  | declaration (property value : Text)
  | comment (text : Text)
deriving DecidableEq, Repr

inductive Head where
  | atRule (name params : Text)
  | rule (selector : Text)
deriving DecidableEq, Repr

inductive Node where
  | leaf (content : Leaf) (layout : Layout)
  | block (head : Head) (children : List Node) (layout : Layout)
deriving Repr

structure Stylesheet where
  nodes : List Node := []
  /-- What follows the last node. -/
  after : Text := []
deriving Repr

def Leaf.withMainText (text : Text) : Leaf → Leaf
  | .atRule _ params => .atRule text params
  | .declaration _ value => .declaration text value
  | .comment _ => .comment text

def Head.withMainText (text : Text) : Head → Head
  | .atRule _ params => .atRule text params
  | .rule _ => .rule text

mutual

def Node.decEq : (m n : Node) → Decidable (m = n)
  | .leaf c l, .leaf d k =>
    if h : c = d ∧ l = k then isTrue (by rw [h.1, h.2])
    else isFalse (fun e => by cases e; exact h ⟨rfl, rfl⟩)
  | .leaf _ _, .block _ _ _ => isFalse (fun e => by cases e)
  | .block _ _ _, .leaf _ _ => isFalse (fun e => by cases e)
  | .block g ms l, .block h ns k =>
    match Node.decEqList ms ns with
    | isTrue e =>
      if d : g = h ∧ l = k then isTrue (by rw [d.1, d.2, e])
      else isFalse (fun e => by cases e; exact d ⟨rfl, rfl⟩)
    | isFalse d => isFalse (fun e => by cases e; exact d rfl)

def Node.decEqList : (ms ns : List Node) → Decidable (ms = ns)
  | [], [] => isTrue rfl
  | [], _ :: _ => isFalse (fun e => by cases e)
  | _ :: _, [] => isFalse (fun e => by cases e)
  | m :: ms, n :: ns =>
    match Node.decEq m n, Node.decEqList ms ns with
    | isTrue d, isTrue e => isTrue (by rw [d, e])
    | isFalse d, _ => isFalse (fun e => by cases e; exact d rfl)
    | _, isFalse d => isFalse (fun e => by cases e; exact d rfl)

end

instance : DecidableEq Node := Node.decEq

instance : DecidableEq Stylesheet := fun s t =>
  if h : s.nodes = t.nodes ∧ s.after = t.after then
    isTrue (by cases s; cases t; simp_all)
  else isFalse (fun e => by cases e; exact h ⟨rfl, rfl⟩)

def Layout.atRule : Layout := { before := ['\n'], afterName := [' '], semicolon := true }

def Layout.rule : Layout := { before := ['\n'], between := [' '], after := ['\n'] }

def Layout.declaration : Layout :=
  { before := ['\n', ' ', ' '], between := [':', ' '], semicolon := true }

namespace Node

def atRule (name params : Text) : Node := .leaf (.atRule name params) .atRule

def rule (selector : Text) (children : List Node) : Node :=
  .block (.rule selector) children .rule

def declaration (property value : Text) : Node :=
  .leaf (.declaration property value) .declaration

def comment (text : Text) : Node := .leaf (.comment text) {}

instance : Inhabited Node := ⟨comment []⟩

def withMainText (text : Text) : Node → Node
  | .leaf content layout => .leaf (content.withMainText text) layout
  | .block head children layout => .block (head.withMainText text) children layout

def layout : Node → Layout
  | .leaf _ layout => layout
  | .block _ _ layout => layout

def withLayout (layout : Layout) : Node → Node
  | .leaf content _ => .leaf content layout
  | .block head children _ => .block head children layout

def withBefore (before : Text) (n : Node) : Node :=
  n.withLayout { n.layout with before }

def children? : Node → Option (List Node)
  | .leaf _ _ => none
  | .block _ children _ => some children

def withChildren (children : List Node) : Node → Node
  | .leaf content layout => .leaf content layout
  | .block head _ layout => .block head children layout

def selector? : Node → Option Text
  | .block (.rule selector) _ _ => some selector
  | _ => none

def atRuleName? : Node → Option Text
  | .leaf (.atRule name _) _ => some name
  | .block (.atRule name _) _ _ => some name
  | _ => none

def params? : Node → Option Text
  | .leaf (.atRule _ params) _ => some params
  | .block (.atRule _ params) _ _ => some params
  | _ => none

def declaration? : Node → Option (Text × Text)
  | .leaf (.declaration property value) _ => some (property, value)
  | _ => none

def mainText : Node → Text
  | .leaf (.atRule name _) _ => name
  | .leaf (.declaration property _) _ => property
  | .leaf (.comment text) _ => text
  | .block (.atRule name _) _ _ => name
  | .block (.rule selector) _ _ => selector

def withParams? (params : Text) : Node → Option Node
  | .leaf (.atRule name _) layout => some (.leaf (.atRule name params) layout)
  | .block (.atRule name _) children layout => some (.block (.atRule name params) children layout)
  | _ => none

def withValue? (value : Text) : Node → Option Node
  | .leaf (.declaration property _) layout => some (.leaf (.declaration property value) layout)
  | _ => none

/-- Whether the node is an at-rule of that name, in any letter case. -/
def isAtRule (name : Text) (n : Node) : Bool :=
  match n.atRuleName? with
  | some own => own.equalsIgnoringCase name
  | none => false

end Node

def declarationsIn (nodes : List Node) : List (Text × Text) := nodes.filterMap Node.declaration?

end StyleValues
