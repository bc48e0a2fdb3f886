import StyleValues.Proofs.Interchange.Grouping
import StyleValues.Proofs.Sheet.Forest
import StyleValues.Resolution.Run

/-!
# The statements of a sheet

The statements are the at-rules of their name, in the order of a walk. What
a run imports is read off them in that order, and their anchors are indices
of top-level nodes.
-/

set_option autoImplicit false

namespace StyleValues

theorem params?_isSome_of_isAtRule {name : Text} {n : Node} (h : n.isAtRule name) :
    n.params?.isSome := by
  rcases n with ⟨content, layout⟩ | ⟨head, children, layout⟩
  · cases content <;> simp_all [Node.isAtRule, Node.atRuleName?, Node.params?]
  · cases head <;> simp_all [Node.isAtRule, Node.atRuleName?, Node.params?]

def statementOf (path : Path) (n : Node) : Statement where
  path := path
  params := n.params?.getD []
  source := n.print.trim

theorem ofNode?_of_isAtRule {name : Text} {n : Node} (path : Path) (h : n.isAtRule name) :
    Statement.ofNode? path n = some (statementOf path n) := by
  obtain ⟨params, hp⟩ := Option.isSome_iff_exists.mp (params?_isSome_of_isAtRule h)
  simp [Statement.ofNode?, statementOf, hp]

theorem path_statementOf (path : Path) (n : Node) : (statementOf path n).path = path := rfl

theorem map_path_statementsIn (nodes : List Node) :
    (statementsIn nodes).map Statement.path = atRulePaths valueKeyword nodes := by
  rw [statementsIn, List.map_filterMap]
  conv => rhs; rw [← List.filterMap_some (l := atRulePaths valueKeyword nodes)]
  apply List.filterMap_congr
  intro path hp
  obtain ⟨n, hn, ha⟩ := mem_atRulePaths_iff.mp hp
  simp [hn, ofNode?_of_isAtRule path ha, path_statementOf]

theorem map_statementsIn {α : Type} (f : Statement → α) (g : Node → α)
    (h : ∀ path n, f (statementOf path n) = g n) (nodes : List Node) :
    (statementsIn nodes).map f = ((preorder nodes).filter (Node.isAtRule valueKeyword)).map g := by
  rw [statementsIn, List.map_filterMap, ← filterMap_nodeAt?, List.map_filterMap]
  apply List.filterMap_congr
  intro path hp
  obtain ⟨n, hn, ha⟩ := mem_atRulePaths_iff.mp hp
  simp [hn, ofNode?_of_isAtRule path ha, h]

theorem mem_statementsIn_path {nodes : List Node} {s : Statement} (h : s ∈ statementsIn nodes) :
    s.path ∈ atRulePaths valueKeyword nodes := by
  rw [← map_path_statementsIn]
  exact List.mem_map_of_mem h

theorem nodeAt?_head_lt {nodes : List Node} {path : Path} {n : Node}
    (h : nodeAt? nodes path = some n) : path.headD 0 < nodes.length := by
  rcases path with _ | ⟨i, _ | ⟨j, path⟩⟩
  · exact absurd rfl (nodeAt?_eq_some_ne_nil h)
  · exact (List.getElem?_eq_some_iff.mp h).1
  · rw [nodeAt?] at h
    cases hi : nodes[i]? with
    | none => simp [hi] at h
    | some m => exact (List.getElem?_eq_some_iff.mp hi).1

theorem anchor_lt {nodes : List Node} {s : Statement} (h : s ∈ statementsIn nodes) :
    s.anchor < nodes.length := by
  obtain ⟨n, hn, _⟩ := mem_atRulePaths_iff.mp (mem_statementsIn_path h)
  exact nodeAt?_head_lt hn

theorem isStatementAt_statementsIn (nodes : List Node) (i : Nat) :
    isStatementAt (statementsIn nodes) i = nodes[i]?.any (Node.isAtRule valueKeyword) := by
  rw [Bool.eq_iff_iff, Option.any_eq_true]
  have h : isStatementAt (statementsIn nodes) i = true ↔ [i] ∈ atRulePaths valueKeyword nodes := by
    rw [← map_path_statementsIn, isStatementAt, List.any_eq_true, List.mem_map]
    simp only [beq_iff_eq]
  rw [h, mem_atRulePaths_iff]
  simp only [nodeAt?]

/-! ### What the statements import -/

def Statement.uses (s : Statement) : List ImportUse :=
  match Definition.read s.params with
  | .ok (.imports path names) => names.map fun n => ⟨path, n.source, n.name, s.anchor⟩
  | _ => []

def usesIn (nodes : List Node) : List ImportUse := (statementsIn nodes).flatMap Statement.uses

theorem imports_importNames (s : Statement) (path : Text) (names : List ImportedName)
    (p : Progress) : (names.foldl (Progress.importName s path) p).imports =
      p.imports.registerAll (names.map fun n => ⟨path, n.source, n.name, s.anchor⟩) := by
  induction names generalizing p with
  | nil => rfl
  | cons n names ih => exact ih (p.importName s path n)

theorem imports_process (p : Progress) (s : Statement) :
    (p.process s).imports = p.imports.registerAll s.uses := by
  rw [Progress.process, Statement.uses]
  rcases Definition.read s.params with e | ⟨name, value⟩ | ⟨path, names⟩
  · rfl
  · rfl
  · exact imports_importNames s path names p

theorem imports_processAll (p : Progress) (statements : List Statement) :
    (p.processAll statements).imports =
      p.imports.registerAll (statements.flatMap Statement.uses) := by
  induction statements generalizing p with
  | nil => rfl
  | cons s rest ih =>
    rw [List.flatMap_cons, Imports.registerAll_append, ← imports_process]
    exact ih (p.process s)

theorem imports_collect (config : Config) (sheet : Stylesheet) :
    (collect config sheet).imports =
      (Imports.ofNodes config.stem sheet.nodes).registerAll (usesIn sheet.nodes) :=
  imports_processAll (Progress.start config.stem sheet.nodes) (statementsIn sheet.nodes)

end StyleValues
