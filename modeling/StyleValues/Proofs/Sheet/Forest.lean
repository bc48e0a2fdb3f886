import Mathlib.Data.List.Basic
import StyleValues.Sheet.Path
import StyleValues.Sheet.Walk

/-!
# Forests and the paths in them

Induction over sibling lists, and how the paths of a list come from those of
its parts. Every node has one path, and the paths come in the order in which a
walk meets the nodes (`mem_pathsIn_iff`, `map_nodeAt?_pathsIn`). The paths to the
at-rules of a name are picked from them (`atRulePaths_eq_filter`).
-/

set_option autoImplicit false

namespace StyleValues

/-- Induction over a sibling list and the lists inside its blocks. -/
@[elab_as_elim]
theorem forestInduction {P : List Node → Prop} (nil : P [])
    (leaf : ∀ content layout rest, P rest → P (.leaf content layout :: rest))
    (block : ∀ head children layout rest, P children → P rest →
      P (.block head children layout :: rest)) (nodes : List Node) : P nodes :=
  match nodes with
  | [] => nil
  | .leaf content layout :: rest => leaf content layout rest (forestInduction nil leaf block rest)
  | .block head children layout :: rest =>
    block head children layout rest (forestInduction nil leaf block children)
      (forestInduction nil leaf block rest)

abbrev Path.behind (path : Path) : Path := path.modifyHead (· + 1)

mutual

def Node.paths : Node → List Path
  | .leaf _ _ => [[]]
  | .block _ children _ => [] :: pathsIn children

def pathsIn : List Node → List Path
  | [] => []
  | n :: rest => n.paths.map (0 :: ·) ++ (pathsIn rest).map Path.behind

end

section
variable (head : Head) (children rest : List Node) (layout : Layout)

theorem nodeAt?_behind (n : Node) (path : Path) :
    nodeAt? (n :: rest) path.behind = nodeAt? rest path := by
  cases path with
  | nil => rfl
  | cons i path =>
    cases path with
    | nil => simp [nodeAt?]
    | cons j path => simp [nodeAt?]

theorem nodeAt?_inside {path : Path} (h : path ≠ []) :
    nodeAt? (.block head children layout :: rest) (0 :: path) = nodeAt? children path := by
  cases path with
  | nil => exact absurd rfl h
  | cons j path => simp [nodeAt?, Node.children?]

end

theorem nodeAt?_eq_some_ne_nil {nodes : List Node} {path : Path} {n : Node}
    (h : nodeAt? nodes path = some n) : path ≠ [] := by
  rintro rfl
  cases nodes <;> cases h

/-! ### All paths -/

section
variable (content : Leaf) (head : Head) (children rest : List Node) (layout : Layout)

theorem pathsIn_leaf :
    pathsIn (.leaf content layout :: rest) = [0] :: (pathsIn rest).map Path.behind := rfl

theorem pathsIn_block :
    pathsIn (.block head children layout :: rest) =
      [0] :: ((pathsIn children).map (0 :: ·) ++ (pathsIn rest).map Path.behind) := rfl

end

theorem ne_nil_of_mem_pathsIn {nodes : List Node} {path : Path} (h : path ∈ pathsIn nodes) :
    path ≠ [] := by
  induction nodes generalizing path with
  | nil => cases h
  | cons n rest ih =>
    rw [pathsIn, List.mem_append, List.mem_map, List.mem_map] at h
    rcases h with ⟨q, -, rfl⟩ | ⟨q, hq, rfl⟩
    · exact List.cons_ne_nil _ _
    · obtain ⟨i, q, rfl⟩ := List.exists_cons_of_ne_nil (ih hq)
      exact List.cons_ne_nil _ _

section
variable {n : Node} {rest : List Node} {path : Path}

theorem zero_cons_mem_pathsIn : 0 :: path ∈ pathsIn (n :: rest) ↔ path ∈ n.paths := by
  rw [pathsIn, List.mem_append, List.mem_map, List.mem_map]
  constructor
  · rintro (⟨q, hq, e⟩ | ⟨q, -, e⟩)
    · cases e
      exact hq
    · cases q <;> cases e
  · intro h
    exact .inl ⟨path, h, rfl⟩

theorem succ_cons_mem_pathsIn {i : Nat} :
    (i + 1) :: path ∈ pathsIn (n :: rest) ↔ i :: path ∈ pathsIn rest := by
  rw [pathsIn, List.mem_append, List.mem_map, List.mem_map]
  constructor
  · rintro (⟨q, -, e⟩ | ⟨q, hq, e⟩)
    · cases e
    · cases q <;> cases e
      exact hq
  · intro h
    exact .inr ⟨i :: path, h, rfl⟩

theorem mem_paths_iff : path ∈ n.paths ↔ path = [] ∨ path ∈ pathsIn (n.children?.getD []) := by
  cases n with
  | leaf content layout => simp [Node.paths, Node.children?, pathsIn]
  | block head children layout => exact List.mem_cons

end

/-- Every path that leads to a node is listed, and no other. -/
theorem mem_pathsIn_iff {nodes : List Node} {path : Path} :
    path ∈ pathsIn nodes ↔ (nodeAt? nodes path).isSome := by
  induction path generalizing nodes with
  | nil =>
    refine iff_of_false (fun h => ne_nil_of_mem_pathsIn h rfl) ?_
    rw [Option.isSome_iff_exists]
    rintro ⟨n, h⟩
    exact nodeAt?_eq_some_ne_nil h rfl
  | cons i path ih =>
    induction nodes generalizing i with
    | nil => cases path <;> simp [pathsIn, nodeAt?]
    | cons n rest ihr =>
      cases i with
      | succ i =>
        rw [succ_cons_mem_pathsIn, ihr, ← nodeAt?_behind rest n (i :: path)]
        rfl
      | zero =>
        rw [zero_cons_mem_pathsIn, mem_paths_iff, ih]
        cases path with
        | nil => simp [nodeAt?]
        | cons j path =>
          cases n with
          | leaf content layout => cases path <;> simp [nodeAt?, Node.children?]
          | block head children layout =>
            rw [nodeAt?_inside head children rest layout (List.cons_ne_nil j path)]
            simp [Node.children?]

theorem map_nodeAt?_pathsIn (nodes : List Node) :
    (pathsIn nodes).map (nodeAt? nodes) = (preorder nodes).map some := by
  have hbehind : ∀ (n : Node) (rest : List Node), ((pathsIn rest).map Path.behind).map
      (nodeAt? (n :: rest)) = (pathsIn rest).map (nodeAt? rest) := by
    intro n rest
    rw [List.map_map]
    exact List.map_congr_left fun path _ => nodeAt?_behind rest n path
  induction nodes using forestInduction with
  | nil => rfl
  | leaf content layout rest ih =>
    rw [pathsIn_leaf, List.map_cons, hbehind, ih]
    rfl
  | block head children layout rest ihc ihr =>
    have hinside : ((pathsIn children).map (0 :: ·)).map
        (nodeAt? (.block head children layout :: rest)) =
          (pathsIn children).map (nodeAt? children) := by
      rw [List.map_map]
      exact List.map_congr_left fun path hp =>
        nodeAt?_inside head children rest layout (ne_nil_of_mem_pathsIn hp)
    rw [pathsIn_block, List.map_cons, List.map_append, hinside, hbehind, ihc, ihr, preorder,
      Node.preorder, List.cons_append, List.map_cons, List.map_append]
    rfl

/-! ### The paths to the at-rules of a name -/

section
variable (name : Text) (content : Leaf) (head : Head) (children rest : List Node) (layout : Layout)

theorem atRulePaths_leaf : atRulePaths name (.leaf content layout :: rest) =
    (if (Node.leaf content layout).isAtRule name then [[0]] else []) ++
      (atRulePaths name rest).map Path.behind := by
  rw [atRulePaths, Node.atRulePaths]
  split <;> rfl

theorem atRulePaths_block : atRulePaths name (.block head children layout :: rest) =
    (if (Node.block head children layout).isAtRule name then [[0]] else []) ++
      ((atRulePaths name children).map (0 :: ·) ++ (atRulePaths name rest).map Path.behind) := by
  rw [atRulePaths, Node.atRulePaths]
  split <;> simp

end

def leadsToAtRule (name : Text) (nodes : List Node) (path : Path) : Bool :=
  (nodeAt? nodes path).any (Node.isAtRule name)

theorem atRulePaths_eq_filter (name : Text) (nodes : List Node) :
    atRulePaths name nodes = (pathsIn nodes).filter (leadsToAtRule name nodes) := by
  have hbehind : ∀ (n : Node) (rest : List Node),
      ((pathsIn rest).map Path.behind).filter (leadsToAtRule name (n :: rest)) =
        ((pathsIn rest).filter (leadsToAtRule name rest)).map Path.behind := by
    intro n rest
    rw [List.filter_map]
    congr 1
    apply List.filter_congr
    intro path _
    exact congrArg (Option.any _) (nodeAt?_behind rest n path)
  have hhere : ∀ (n : Node) (rest : List Node),
      leadsToAtRule name (n :: rest) [0] = n.isAtRule name := fun n rest => rfl
  induction nodes using forestInduction with
  | nil => rfl
  | leaf content layout rest ih =>
    rw [atRulePaths_leaf, pathsIn_leaf, List.filter_cons, hbehind, hhere, ih]
    split <;> rfl
  | block head children layout rest ihc ihr =>
    have hinside : ((pathsIn children).map (0 :: ·)).filter
        (leadsToAtRule name (.block head children layout :: rest)) =
          ((pathsIn children).filter (leadsToAtRule name children)).map (0 :: ·) := by
      rw [List.filter_map]
      congr 1
      apply List.filter_congr
      intro path hp
      exact congrArg (Option.any _)
        (nodeAt?_inside head children rest layout (ne_nil_of_mem_pathsIn hp))
    rw [atRulePaths_block, pathsIn_block, List.filter_cons, List.filter_append, hinside, hbehind,
      hhere, ihc, ihr]
    split <;> rfl

theorem ne_nil_of_mem_atRulePaths {name : Text} {nodes : List Node} {path : Path}
    (h : path ∈ atRulePaths name nodes) : path ≠ [] := by
  rw [atRulePaths_eq_filter] at h
  exact ne_nil_of_mem_pathsIn (List.mem_of_mem_filter h)

/-- A path leads to an at-rule of a name exactly if it is listed for that name. -/
theorem mem_atRulePaths_iff {name : Text} {nodes : List Node} {path : Path} :
    path ∈ atRulePaths name nodes ↔ ∃ n, nodeAt? nodes path = some n ∧ n.isAtRule name := by
  rw [atRulePaths_eq_filter, List.mem_filter, mem_pathsIn_iff, leadsToAtRule]
  cases nodeAt? nodes path <;> simp

/-- The paths come in the order of a walk. -/
theorem filterMap_nodeAt? (name : Text) (nodes : List Node) :
    (atRulePaths name nodes).filterMap (nodeAt? nodes) =
      (preorder nodes).filter (Node.isAtRule name) := by
  have hpick : (fun path => if leadsToAtRule name nodes path then nodeAt? nodes path else none) =
      Option.filter (Node.isAtRule name) ∘ nodeAt? nodes := by
    funext path
    rw [leadsToAtRule, Function.comp_apply]
    cases nodeAt? nodes path <;> rfl
  rw [atRulePaths_eq_filter, List.filterMap_filter, hpick, ← List.filterMap_map,
    map_nodeAt?_pathsIn, List.filterMap_map, ← List.filterMap_eq_filter]
  rfl

end StyleValues
