import StyleValues.Proofs.Sheet.Removal

/-!
# Paths after a removal

Taking a node out of a tree moves its later siblings up by one, together with
all that is inside them, and every other node keeps its path. So a path into
the new tree leads to what the old tree has at the path shifted back; only the
blocks around the removed node have changed, by that removal alone
(`nodeAt?_removeAt`).
-/

set_option autoImplicit false

namespace StyleValues

/-- The path to the same node before the one at `removed` was taken out: the index among the
siblings of that node is one higher from that node on. -/
def Path.restored (removed q : Path) : Path :=
  match removed.getLast?, q[removed.length - 1]? with
  | some i, some j =>
    if removed.dropLast <+: q ∧ i ≤ j then q.set (removed.length - 1) (j + 1) else q
  | _, _ => q

def Node.cleared (path : Path) (n : Node) : Node :=
  n.withChildren (removeAt (n.children?.getD []) path)

/-- What has become of the node at `q`: a block around the removed node has lost it. -/
def Node.afterRemoval (removed q : Path) (n : Node) : Node :=
  if q <+: removed ∧ q ≠ removed then n.cleared (removed.drop q.length) else n

inductive Path.Lost : List Node → Path → Prop
  | empty {nodes : List Node} : Lost nodes []
  | outOfRange {nodes : List Node} {i : Nat} {path : Path} :
    nodes.length ≤ i → Lost nodes (i :: path)
  | leaf {nodes : List Node} {i : Nat} {path : Path} {content : Leaf} {layout : Layout} :
    nodes[i]? = some (.leaf content layout) → path ≠ [] → Lost nodes (i :: path)
  | inside {nodes : List Node} {i : Nat} {path : Path} {head : Head} {children : List Node}
      {layout : Layout} :
    nodes[i]? = some (.block head children layout) → path ≠ [] → Lost children path →
      Lost nodes (i :: path)

/-! ### Looking up -/

section
variable {nodes : List Node} {i : Nat} {path : Path}

theorem nodeAt?_nil (nodes : List Node) : nodeAt? nodes [] = none := by
  cases nodes <;> rfl

theorem nodeAt?_cons (h : path ≠ []) :
    nodeAt? nodes (i :: path) = (nodes[i]?.bind Node.children?).bind fun c => nodeAt? c path := by
  obtain ⟨j, path, rfl⟩ := List.exists_cons_of_ne_nil h
  rw [nodeAt?]
  cases nodes[i]?.bind Node.children? <;> rfl

theorem nodeAt?_congr {nodes' : List Node} {j : Nat} (h : nodes[i]? = nodes'[j]?) (path : Path) :
    nodeAt? nodes (i :: path) = nodeAt? nodes' (j :: path) := by
  by_cases hp : path = []
  · subst hp
    exact h
  · rw [nodeAt?_cons hp, nodeAt?_cons hp, h]

/-- A lookup finds nothing exactly if the path is empty, an index is out of range, or the path
goes on inside a node that is no block. -/
theorem nodeAt?_eq_none_iff : nodeAt? nodes path = none ↔ path.Lost nodes := by
  constructor
  · intro h
    induction path generalizing nodes with
    | nil => exact .empty
    | cons i path ih =>
      cases hi : nodes[i]? with
      | none => exact .outOfRange (List.getElem?_eq_none_iff.mp hi)
      | some n =>
        by_cases hp : path = []
        · subst hp
          have hn : nodeAt? nodes [i] = some n := hi
          rw [hn] at h
          cases h
        · rw [nodeAt?_cons hp, hi] at h
          cases n with
          | leaf content layout => exact .leaf hi hp
          | block head children layout => exact .inside hi hp (ih h)
  · intro h
    induction h with
    | empty => exact nodeAt?_nil _
    | @outOfRange nodes i path hi =>
      have hn : nodes[i]? = none := List.getElem?_eq_none hi
      by_cases hp : path = []
      · subst hp
        exact hn
      · rw [nodeAt?_cons hp, hn]
        rfl
    | leaf hi hp =>
      rw [nodeAt?_cons hp, hi]
      rfl
    | inside hi hp _ ih =>
      rw [nodeAt?_cons hp, hi]
      exact ih

end

/-! ### Removing -/

section
variable (nodes : List Node) (i : Nat) {path : Path}

theorem removeAt_singleton : removeAt nodes [i] = nodes.eraseIdx i := by
  simp only [removeAt, extractAt?, editAt?]
  cases hi : nodes[i]? with
  | some n => rfl
  | none => exact (List.eraseIdx_of_length_le (List.getElem?_eq_none_iff.mp hi)).symm

theorem removeAt_cons (h : path ≠ []) :
    removeAt nodes (i :: path) = nodes.modify i (Node.cleared path) := by
  induction nodes generalizing i with
  | nil =>
    obtain ⟨j, path, rfl⟩ := List.exists_cons_of_ne_nil h
    simp [removeAt, extractAt?, editAt?]
  | cons n rest ih =>
    cases i with
    | succ i =>
      show removeAt (n :: rest) (Path.behind (i :: path)) = _
      rw [removeAt_behind, ih, List.modify_succ_cons]
    | zero =>
      cases n with
      | leaf content layout =>
        obtain ⟨j, path, rfl⟩ := List.exists_cons_of_ne_nil h
        rfl
      | block head children layout => exact removeAt_inside head children rest layout h

theorem extractAt?_eq (path : Path) :
    extractAt? nodes path = (nodeAt? nodes path).map fun n => (n, removeAt nodes path) := by
  induction path generalizing nodes with
  | nil => rw [nodeAt?_nil]; rfl
  | cons i path ih =>
    by_cases hp : path = []
    · subst hp
      rw [removeAt_singleton]
      rfl
    · rw [removeAt_cons nodes i hp, nodeAt?_cons hp]
      obtain ⟨j, path, rfl⟩ := List.exists_cons_of_ne_nil hp
      rw [extractAt?, editAt?]
      cases hi : nodes[i]? with
      | none => rfl
      | some n =>
        cases n with
        | leaf content layout => rfl
        | block head children layout =>
          have hc := ih children
          rw [extractAt?] at hc
          simp only [hc, Option.bind_some, Node.children?]
          cases nodeAt? children (j :: path) with
          | none => rfl
          | some removed =>
            simp [List.modify_eq_set_getElem?, hi, Node.cleared, Node.withChildren, Node.children?]

end

/-! ### The shift -/

section
variable {i j : Nat} {removed q : Path}

theorem Path.restored_nil_left (q : Path) : Path.restored [] q = q := rfl

theorem Path.restored_nil_right (removed : Path) : Path.restored removed [] = [] := by
  rw [restored]
  cases removed.getLast? <;> rfl

theorem Path.restored_singleton :
    Path.restored [i] (j :: q) = if i ≤ j then (j + 1) :: q else j :: q := by
  simp [restored]

theorem Path.restored_cons (h : removed ≠ []) :
    Path.restored (i :: removed) (j :: q) =
      if i = j then j :: Path.restored removed q else j :: q := by
  obtain ⟨r, removed, rfl⟩ := List.exists_cons_of_ne_nil h
  simp only [restored, List.getLast?_cons_cons, List.length_cons, Nat.add_sub_cancel,
    List.getElem?_cons_succ, List.dropLast_cons_of_ne_nil h, List.cons_prefix_cons, List.set_cons_succ]
  cases (r :: removed).getLast? with
  | none => simp
  | some last =>
    cases q[removed.length]? with
    | none => simp
    | some k =>
      by_cases hij : i = j
      · subst hij
        simp only [true_and, if_true]
        split
        · rfl
        · rfl
      · simp [hij]

theorem Path.length_restored (removed q : Path) : (Path.restored removed q).length = q.length := by
  rw [restored]
  split
  · split
    · exact List.length_set
    · rfl
  · rfl

theorem Path.restored_ne_nil (h : q ≠ []) (removed : Path) : Path.restored removed q ≠ [] := by
  rw [← List.length_pos_iff, length_restored]
  exact List.length_pos_iff.mpr h

theorem Node.afterRemoval_nil (n : Node) : Node.afterRemoval [] q n = n := by
  rw [afterRemoval, if_neg fun h => h.2 (List.prefix_nil.mp h.1)]

theorem Node.afterRemoval_singleton (n : Node) :
    Node.afterRemoval [i] (j :: q) n = n := by
  refine if_neg ?_
  rintro ⟨h, hne⟩
  obtain ⟨rfl, hq⟩ := List.cons_prefix_cons.mp h
  exact hne (by rw [List.prefix_nil.mp hq])

theorem Node.afterRemoval_cons_of_ne (h : i ≠ j) (n : Node) :
    Node.afterRemoval (i :: removed) (j :: q) n = n :=
  if_neg fun hq => h (List.cons_prefix_cons.mp hq.1).1.symm

theorem Node.afterRemoval_cons_cons (n : Node) :
    Node.afterRemoval (i :: removed) (i :: q) n = Node.afterRemoval removed q n := by
  simp [afterRemoval, List.cons_prefix_cons]

theorem Node.afterRemoval_here (h : removed ≠ []) (n : Node) :
    Node.afterRemoval removed [] n = n.cleared removed :=
  if_pos ⟨List.nil_prefix, h.symm⟩

end

/-- What a path leads to after a removal stood at the shifted path before it. -/
theorem nodeAt?_removeAt (nodes : List Node) (removed q : Path) :
    nodeAt? (removeAt nodes removed) q =
      (nodeAt? nodes (removed.restored q)).map (Node.afterRemoval removed q) := by
  induction removed generalizing nodes q with
  | nil =>
    rw [removeAt_nil, Path.restored_nil_left, funext Node.afterRemoval_nil]
    exact Option.map_id'.symm
  | cons i removed ih =>
    cases q with
    | nil => rw [Path.restored_nil_right, nodeAt?_nil, nodeAt?_nil, Option.map_none]
    | cons j q =>
      by_cases hr : removed = []
      · subst hr
        have hid : Node.afterRemoval [i] (j :: q) = id := funext Node.afterRemoval_singleton
        rw [removeAt_singleton, Path.restored_singleton, hid, Option.map_id, id_eq]
        have he := List.getElem?_eraseIdx (l := nodes) (i := i) (j := j)
        by_cases hij : i ≤ j
        · rw [if_neg (by omega)] at he
          rw [if_pos hij, nodeAt?_congr he]
        · rw [if_pos (by omega)] at he
          rw [if_neg hij, nodeAt?_congr he]
      · rw [removeAt_cons nodes i hr, Path.restored_cons hr]
        by_cases hij : i = j
        · subst hij
          have hm : (nodes.modify i (Node.cleared removed))[i]? =
              nodes[i]?.map (Node.cleared removed) := List.getElem?_modify_eq ..
          have hafter : Node.afterRemoval (i :: removed) (i :: q) = Node.afterRemoval removed q :=
            funext Node.afterRemoval_cons_cons
          rw [if_pos rfl, hafter]
          by_cases hq : q = []
          · subst hq
            rw [Path.restored_nil_right, funext (Node.afterRemoval_here hr)]
            exact hm
          · rw [nodeAt?_cons hq, nodeAt?_cons (Path.restored_ne_nil hq removed), hm]
            rcases nodes[i]? with _ | ⟨content, layout⟩ | ⟨head, children, layout⟩
            · rfl
            · rfl
            · exact ih children q
        · rw [if_neg hij, funext (Node.afterRemoval_cons_of_ne hij), Option.map_id']
          exact nodeAt?_congr (List.getElem?_modify_ne _ _ hij) q

/-- A removal by path gives back what stood there and takes out that alone: a path that leads
nowhere changes nothing, every other node is found at its shifted path, and removing the at-rules
of a name from the last path to the first leaves them out of every sibling list. -/
theorem lookups_of_removal (nodes : List Node) (path : Path) :
    (extractAt? nodes path = (nodeAt? nodes path).map fun n => (n, removeAt nodes path)) ∧
      (nodeAt? nodes path = none ↔ path.Lost nodes) ∧
      (path.Lost nodes → removeAt nodes path = nodes) ∧
      (∀ q, nodeAt? (removeAt nodes path) q =
        (nodeAt? nodes (path.restored q)).map (Node.afterRemoval path q)) ∧
      ∀ name, removePaths nodes (atRulePaths name nodes) = prune name nodes := by
  refine ⟨extractAt?_eq nodes path, nodeAt?_eq_none_iff, ?_, nodeAt?_removeAt nodes path,
    fun name => removePaths_atRulePaths name nodes⟩
  intro h
  rw [removeAt, extractAt?_eq, nodeAt?_eq_none_iff.mpr h]
  rfl

def nestedStatements : List Node :=
  [.atRule ['v'] ['a'], .rule ['x']
    [.declaration ['p'] ['a'], .atRule ['V'] ['b'], .declaration ['q'] ['b']]]

theorem lookups_of_removal_nested :
    Path.Lost nestedStatements [1, 1, 0] ∧
      removeAt nestedStatements [1, 1, 0] = nestedStatements ∧
      nodeAt? (removeAt nestedStatements [1, 1]) [1, 1] = nodeAt? nestedStatements [1, 2] ∧
      removePaths nestedStatements [[0], [1, 1]] =
        [.rule ['x'] [.declaration ['p'] ['a'], .declaration ['q'] ['b']]] := by
  have hlost : Path.Lost nestedStatements [1, 1, 0] :=
    .inside rfl (List.cons_ne_nil _ _) (.leaf rfl (List.cons_ne_nil _ _))
  have hlookup := (lookups_of_removal nestedStatements [1, 1]).2.2.2.1 [1, 1]
  exact ⟨hlost, (lookups_of_removal nestedStatements [1, 1, 0]).2.2.1 hlost, hlookup.trans rfl,
    (lookups_of_removal nestedStatements []).2.2.2.2 ['v']⟩

end StyleValues
