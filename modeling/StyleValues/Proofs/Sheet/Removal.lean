import StyleValues.Proofs.Sheet.Forest
import StyleValues.Resolution.Rewrite

/-!
# Removal of at-rules

Removing the at-rules of a name by their paths, the last path first, is the
same as leaving them out on the way through the tree. No removal changes the
meaning of a path that is still to come: the paths behind a node shift with
it, and the paths inside a node are used up before the node itself goes.
-/

set_option autoImplicit false

namespace StyleValues

mutual

def Node.pruned (name : Text) : Node → Node
  | .leaf content layout => .leaf content layout
  | .block head children layout => .block head (prune name children) layout

/-- The nodes without the at-rules of that name. All that is inside an at-rule goes with it. -/
def prune (name : Text) : List Node → List Node
  | [] => []
  | n :: rest => if n.isAtRule name then prune name rest else n.pruned name :: prune name rest

end

theorem prune_eq_map (name : Text) (nodes : List Node) :
    prune name nodes = (nodes.filter fun n => !n.isAtRule name).map (Node.pruned name) := by
  induction nodes with
  | nil => rfl
  | cons n rest ih =>
    rw [prune]
    split
    · next h => simp [h, ih]
    · next h => simp [h, ih]

mutual

def Node.outside (name : Text) : Node → List Node
  | .leaf content layout =>
    if (Node.leaf content layout).isAtRule name then [] else [.leaf content layout]
  | .block head children layout =>
    if (Node.block head children layout).isAtRule name then []
    else .block head children layout :: outside name children

/-- The nodes that are neither at-rules of that name nor inside one. -/
def outside (name : Text) : List Node → List Node
  | [] => []
  | n :: rest => n.outside name ++ outside name rest

end

/-- Pruning leaves the nodes outside the at-rules, each without those inside it. -/
theorem preorder_prune (name : Text) (nodes : List Node) :
    preorder (prune name nodes) = (outside name nodes).map (Node.pruned name) := by
  induction nodes using forestInduction with
  | nil => rfl
  | leaf content layout rest ih =>
    rw [prune, outside, Node.outside]
    split
    · exact ih
    · rw [preorder, ih]
      rfl
  | block head children layout rest ihc ihr =>
    rw [prune, outside, Node.outside]
    split
    · exact ihr
    · rw [preorder, ihr, Node.pruned, Node.preorder, ihc, List.map_append, List.map_cons, Node.pruned]

/-- If there is nothing inside the at-rules, every other node is outside them. -/
theorem outside_eq_filter {name : Text} {nodes : List Node}
    (h : ∀ n ∈ preorder nodes, n.isAtRule name → n.children?.getD [] = []) :
    outside name nodes = (preorder nodes).filter fun n => !n.isAtRule name := by
  induction nodes using forestInduction with
  | nil => rfl
  | leaf content layout rest ih =>
    have hr := ih fun n hn => h n (by simp [preorder, hn])
    rw [outside, Node.outside, preorder, Node.preorder, hr]
    split
    · next hn => simp [hn]
    · next hn => simp [hn]
  | block head children layout rest ihc ihr =>
    have hc := ihc fun n hn => h n (by simp [preorder, Node.preorder, hn])
    have hr := ihr fun n hn => h n (by simp [preorder, hn])
    rw [outside, Node.outside, preorder, Node.preorder, hc, hr]
    split
    · next hn =>
      have he : children = [] := h (.block head children layout) (by simp [preorder, Node.preorder]) hn
      subst he
      simp [hn, preorder]
    · next hn => simp [hn]

/-! ### Removing by one path -/

section
variable (head : Head) (children rest : List Node) (layout : Layout) (n : Node)

theorem removeAt_nil (nodes : List Node) : removeAt nodes [] = nodes := by
  cases nodes <;> rfl

theorem removeAt_behind (path : Path) : removeAt (n :: rest) path.behind = n :: removeAt rest path := by
  cases path with
  | nil => rw [removeAt_nil]; rfl
  | cons i path =>
    cases path with
    | nil =>
      simp only [removeAt, extractAt?, editAt?, List.modifyHead_cons, List.getElem?_cons_succ]
      cases rest[i]? <;> rfl
    | cons j path =>
      simp only [removeAt, extractAt?, editAt?, List.modifyHead_cons, List.getElem?_cons_succ]
      rcases rest[i]? with _ | ⟨content, layout⟩ | ⟨head, children, layout⟩
      · rfl
      · rfl
      · simp only
        rcases editAt? (fun siblings i => siblings[i]?.map fun n => (n, siblings.eraseIdx i))
          children (j :: path) with _ | ⟨removed, changed⟩
        · rfl
        · rfl

theorem removeAt_inside {path : Path} (h : path ≠ []) :
    removeAt (.block head children layout :: rest) (0 :: path) =
      .block head (removeAt children path) layout :: rest := by
  cases path with
  | nil => exact absurd rfl h
  | cons j path =>
    simp only [removeAt, extractAt?, editAt?, List.getElem?_cons_zero]
    rcases editAt? (fun siblings i => siblings[i]?.map fun n => (n, siblings.eraseIdx i)) children
      (j :: path) with _ | ⟨removed, changed⟩
    · rfl
    · rfl

end

/-! ### Removing by many paths -/

theorem removePaths_cons (nodes : List Node) (path : Path) (paths : List Path) :
    removePaths nodes (path :: paths) = removeAt (removePaths nodes paths) path := by
  simp [removePaths, List.foldl_append]

theorem removePaths_append (nodes : List Node) (paths paths' : List Path) :
    removePaths nodes (paths ++ paths') = removePaths (removePaths nodes paths') paths := by
  simp [removePaths, List.foldl_append]

theorem removePaths_behind (n : Node) (rest : List Node) (paths : List Path) :
    removePaths (n :: rest) (paths.map Path.behind) = n :: removePaths rest paths := by
  induction paths with
  | nil => rfl
  | cons path paths ih =>
    rw [List.map_cons, removePaths_cons, ih, removeAt_behind, removePaths_cons]

theorem removePaths_inside (head : Head) (children rest : List Node) (layout : Layout)
    {paths : List Path} (h : ∀ path ∈ paths, path ≠ []) :
    removePaths (.block head children layout :: rest) (paths.map (0 :: ·)) =
      .block head (removePaths children paths) layout :: rest := by
  induction paths with
  | nil => rfl
  | cons path paths ih =>
    have hp : path ≠ [] := h path (by simp)
    have hps : ∀ q ∈ paths, q ≠ [] := fun q hq => h q (by simp [hq])
    rw [List.map_cons, removePaths_cons, ih hps, removeAt_inside _ _ _ _ hp, removePaths_cons]

/-- The paths that `atRulePaths` finds inside a block, used up from the last one on. -/
theorem removePaths_atRulePaths_inside (name : Text) (head : Head) (children rest : List Node)
    (layout : Layout) :
    removePaths (.block head children layout :: rest) ((atRulePaths name children).map (0 :: ·)) =
      .block head (removePaths children (atRulePaths name children)) layout :: rest :=
  removePaths_inside head children rest layout fun _ hp => ne_nil_of_mem_atRulePaths hp

/-- Removing the at-rules of a name from the last path to the first leaves them out everywhere. -/
theorem removePaths_atRulePaths (name : Text) (nodes : List Node) :
    removePaths nodes (atRulePaths name nodes) = prune name nodes := by
  induction nodes using forestInduction with
  | nil => rfl
  | leaf content layout rest ih =>
    rw [atRulePaths_leaf, removePaths_append, removePaths_behind, ih, prune]
    split
    · rfl
    · rfl
  | block head children layout rest ihc ihr =>
    rw [atRulePaths_block, removePaths_append, removePaths_append, removePaths_behind, ihr,
      removePaths_atRulePaths_inside, ihc, prune]
    split
    · rfl
    · rfl

section
variable (name : Text)

theorem nested_here (b : Bool) :
    (if b then [[0]] else []).filter (fun path : Path => decide (1 < path.length)) = [] := by
  cases b <;> rfl

theorem nested_behind (nodes : List Node) :
    ((atRulePaths name nodes).map Path.behind).filter (fun path => decide (1 < path.length)) =
      ((atRulePaths name nodes).filter fun path => decide (1 < path.length)).map Path.behind := by
  rw [List.filter_map]
  congr 1
  apply List.filter_congr
  intro path _
  simp

theorem nested_inside (nodes : List Node) :
    ((atRulePaths name nodes).map (0 :: ·)).filter (fun path : Path => decide (1 < path.length)) =
      (atRulePaths name nodes).map (0 :: ·) := by
  rw [List.filter_eq_self]
  intro path hp
  obtain ⟨q, hq, rfl⟩ := List.mem_map.mp hp
  have := List.length_pos_iff.mpr (ne_nil_of_mem_atRulePaths hq)
  simpa using this

/-- Removing only those inside blocks keeps every node of the list itself. -/
theorem removePaths_nested (nodes : List Node) :
    removePaths nodes ((atRulePaths name nodes).filter fun path => decide (1 < path.length)) =
      nodes.map (Node.pruned name) := by
  induction nodes with
  | nil => rfl
  | cons n rest ih =>
    rcases n with ⟨content, layout⟩ | ⟨head, children, layout⟩
    · rw [atRulePaths_leaf, List.filter_append, nested_here, nested_behind, List.nil_append,
        removePaths_behind, ih]
      rfl
    · rw [atRulePaths_block, List.filter_append, List.filter_append, nested_here, nested_inside,
        nested_behind, List.nil_append, removePaths_append, removePaths_behind, ih,
        removePaths_atRulePaths_inside, removePaths_atRulePaths]
      rfl

end

end StyleValues
