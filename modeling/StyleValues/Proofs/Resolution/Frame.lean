import StyleValues.Proofs.Resolution.Texts

/-!
# What a replacement leaves alone

A replacement changes values, selectors and parameters. All the rest of a
sheet, its outline, stays, and so does every exchange block with all that is in
it. Any other text becomes what the replacement makes of it by itself, without
a look at the nodes around it.
-/

set_option autoImplicit false

namespace StyleValues

def Leaf.outline : Leaf → Leaf
  | .atRule name _ => .atRule name []
  | .declaration property _ => .declaration property []
  | .comment text => .comment text

def Head.outline : Head → Head
  | .atRule name _ => .atRule name []
  | .rule _ => .rule []

mutual

def Node.outline : Node → Node
  | .leaf content layout => .leaf content.outline layout
  | .block head children layout => .block head.outline (outline children) layout

def outline : List Node → List Node
  | [] => []
  | n :: rest => n.outline :: outline rest

end

def Node.isExchangeBlock (n : Node) : Bool := n.selector?.any isExchangeSelector

/-- Whether no node on the way down a path, the last one included, is an exchange block. -/
def OpenPath (nodes : List Node) (path : Path) : Prop :=
  ∀ above m, above <+: path → nodeAt? nodes above = some m → ¬ m.isExchangeBlock

theorem isExchangeBlock_block (head : Head) (children : List Node) (layout : Layout) :
    (Node.block head children layout).isExchangeBlock = Replacement.isExchangeHead head := by
  cases head <;> rfl

theorem nodeAt?_cons_cons {nodes : List Node} {i j : Nat} {path : Path} {n : Node} :
    nodeAt? nodes (i :: j :: path) = some n ↔
      ∃ head children layout, nodes[i]? = some (.block head children layout) ∧
        nodeAt? children (j :: path) = some n := by
  rw [nodeAt?]
  cases hi : nodes[i]? with
  | none => simp
  | some m => cases m <;> simp [Node.children?]

theorem OpenPath.of_cons {nodes : List Node} {i : Nat} {head : Head} {children : List Node}
    {layout : Layout} {path : Path} (hi : nodes[i]? = some (.block head children layout))
    (h : OpenPath nodes (i :: path)) : OpenPath children path := by
  intro above m ha hm
  obtain ⟨j, above, rfl⟩ := List.exists_cons_of_ne_nil (nodeAt?_eq_some_ne_nil hm)
  exact h (i :: j :: above) m (List.cons_prefix_cons.mpr ⟨rfl, ha⟩)
    (nodeAt?_cons_cons.mpr ⟨head, children, layout, hi, hm⟩)

namespace Replacement

variable (r : Replacement) {nodes : List Node} {path : Path} {n : Node}

theorem outline_nodes (nodes : List Node) : outline (r.nodes nodes) = outline nodes := by
  induction nodes using forestInduction with
  | nil => rfl
  | leaf content layout rest ih =>
    have hc : (r.leaf content).outline = content.outline := by cases content <;> rfl
    rw [Replacement.nodes, node, outline, outline, ih, Node.outline, Node.outline, hc]
  | block head children layout rest ihc ihr =>
    have hh : (r.head head).outline = head.outline := by cases head <;> rfl
    rw [Replacement.nodes, node, outline, outline, ihr]
    split
    · rfl
    · rw [Node.outline, Node.outline, hh, ihc]

/-- An exchange block stays with all that is in it, in whatever block it stands. -/
theorem nodeAt?_nodes_of_isExchangeBlock (h : nodeAt? nodes path = some n)
    (hn : n.isExchangeBlock) : nodeAt? (r.nodes nodes) path = some n := by
  rw [nodes_eq_map]
  induction path generalizing nodes with
  | nil => exact absurd rfl (nodeAt?_eq_some_ne_nil h)
  | cons i path ih =>
    cases path with
    | nil =>
      rw [nodeAt?] at h ⊢
      rw [List.getElem?_map, h, Option.map_some]
      rcases n with ⟨content, layout⟩ | ⟨head, children, layout⟩
      · cases hn
      · rw [isExchangeBlock_block] at hn
        rw [node, if_pos hn]
    | cons j path =>
      obtain ⟨head, children, layout, hi, hc⟩ := nodeAt?_cons_cons.mp h
      have hm : (nodes.map r.node)[i]? = some (r.node (.block head children layout)) := by
        rw [List.getElem?_map, hi, Option.map_some]
      rw [node] at hm
      split at hm
      · exact nodeAt?_cons_cons.mpr ⟨head, children, layout, hm, hc⟩
      · rw [nodes_eq_map] at hm
        exact nodeAt?_cons_cons.mpr ⟨r.head head, children.map r.node, layout, hm, ih hc⟩

theorem nodeAt?_nodes_of_openPath (h : nodeAt? nodes path = some n) (ho : OpenPath nodes path) :
    nodeAt? (r.nodes nodes) path = some (r.node n) := by
  rw [nodes_eq_map]
  induction path generalizing nodes with
  | nil => exact absurd rfl (nodeAt?_eq_some_ne_nil h)
  | cons i path ih =>
    cases path with
    | nil =>
      rw [nodeAt?] at h ⊢
      rw [List.getElem?_map, h, Option.map_some]
    | cons j path =>
      obtain ⟨head, children, layout, hi, hc⟩ := nodeAt?_cons_cons.mp h
      have hx : ¬ isExchangeHead head := by
        rw [← isExchangeBlock_block head children layout]
        exact ho [i] _ (List.prefix_append [i] (j :: path)) hi
      refine nodeAt?_cons_cons.mpr ⟨r.head head, children.map r.node, layout, ?_, ih hc (ho.of_cons hi)⟩
      rw [List.getElem?_map, hi, Option.map_some, node, if_neg hx, nodes_eq_map]

theorem texts_node (hn : ¬ n.isExchangeBlock) : (r.node n).texts = n.texts.map r.spot := by
  rcases n with ⟨content, layout⟩ | ⟨head, children, layout⟩
  · exact texts_leaf r content
  · rw [isExchangeBlock_block] at hn
    rw [node, if_neg hn]
    exact texts_head r head

end Replacement

/-- A replacement keeps the outline of a sheet and its exchange blocks at any depth. Every other text
is replaced by itself: names are substituted if its place is a target, and then the redirects apply;
where nothing is bound it stays. -/
theorem frame_of_apply (r : Replacement) (nodes : List Node) :
    outline (r.apply nodes) = outline nodes ∧
      ∀ path n, nodeAt? nodes path = some n →
        (n.isExchangeBlock → nodeAt? (r.apply nodes) path = some n) ∧
          (OpenPath nodes path → (nodeAt? (r.apply nodes) path).map Node.texts =
            some (n.texts.map fun e => (e.1,
              if r.bindings.isEmpty then e.2
              else redirect r.redirects
                (if e.1.isTarget r.config then r.bindings.resolve e.2 else e.2)))) := by
  by_cases he : r.bindings.isEmpty
  · have ha : r.apply nodes = nodes := by rw [Replacement.apply, if_pos he]
    rw [ha]
    refine ⟨rfl, fun path n h => ⟨fun _ => h, fun _ => ?_⟩⟩
    rw [h, Option.map_some]
    simp [he]
  · have ha : r.apply nodes = r.nodes nodes := by rw [Replacement.apply, if_neg he]
    rw [ha]
    refine ⟨r.outline_nodes nodes, fun path n h => ⟨fun hn => ?_, fun ho => ?_⟩⟩
    · exact r.nodeAt?_nodes_of_isExchangeBlock h hn
    · have hn : ¬ n.isExchangeBlock := ho path n (List.prefix_refl path) h
      rw [r.nodeAt?_nodes_of_openPath h ho, Option.map_some, r.texts_node hn]
      simp only [he]
      rfl

end StyleValues
