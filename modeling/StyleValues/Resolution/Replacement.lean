import StyleValues.Bindings
import StyleValues.Config
import StyleValues.Interchange.Selector
import StyleValues.Sheet.Node
import StyleValues.Substitution.Identifier

/-!
# Replacement in a document

Declaration values, selectors and the parameters of at-rules are rewritten
each for itself: the bound names are substituted where the configuration says
so, then the redirects apply. The exchange blocks are left alone with all that
is in them.
-/

set_option autoImplicit false

namespace StyleValues

structure Replacement where
  bindings : Bindings
  redirects : Redirects
  config : Config
deriving Repr

namespace Replacement

def text (r : Replacement) (isTarget : Bool) (s : Text) : Text :=
  redirect r.redirects (if isTarget then r.bindings.resolve s else s)

def leaf (r : Replacement) : Leaf → Leaf
  | .atRule name params => .atRule name (r.text (r.config.targetsAtRule name) params)
  | .declaration property value =>
    .declaration property (r.text r.config.targets.declarations value)
  | .comment text => .comment text

def head (r : Replacement) : Head → Head
  | .atRule name params => .atRule name (r.text (r.config.targetsAtRule name) params)
  | .rule selector => .rule (r.text r.config.targets.selectors selector)

def isExchangeHead : Head → Bool
  | .atRule _ _ => false
  | .rule selector => isExchangeSelector selector

mutual

def node (r : Replacement) : Node → Node
  | .leaf content layout => .leaf (r.leaf content) layout
  | .block head children layout =>
    if isExchangeHead head then .block head children layout
    else .block (r.head head) (r.nodes children) layout

def nodes (r : Replacement) : List Node → List Node
  | [] => []
  | n :: rest => r.node n :: r.nodes rest

end

/-- Rewrites the texts of a document. Without any bound name there is nothing to do. -/
def apply (r : Replacement) (ns : List Node) : List Node :=
  if r.bindings.isEmpty then ns else r.nodes ns

end Replacement

end StyleValues
