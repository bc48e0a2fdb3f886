import StyleValues.Proofs.Sheet.Forest

/-!
# Paths in document order

Listed as a walk meets the nodes, the paths into a tree increase: a block comes
before all that is inside it, and siblings come by their indices. The paths to
the at-rules of a name come in the same order, and none comes twice.
-/

set_option autoImplicit false

namespace StyleValues

/-- Whether a path comes before another in the document: it leads to a block around what the other
leads to, or parts from it at an earlier sibling. -/
def Path.Before (p q : Path) : Prop :=
  (p <+: q ∧ p ≠ q) ∨
    ∃ (front : Path) (i j : Nat), i < j ∧ front ++ [i] <+: p ∧ front ++ [j] <+: q

/-! ### The order of paths -/

section
variable {p q : Path}

theorem Path.before_of_lt (h : p < q) : p.Before q := by
  induction h with
  | nil => exact .inl ⟨List.nil_prefix, (List.cons_ne_nil _ _).symm⟩
  | rel h => exact .inr ⟨[], _, _, h, List.prefix_append [_] _, List.prefix_append [_] _⟩
  | @cons k _ _ _ ih =>
    rcases ih with ⟨hp, hne⟩ | ⟨front, i, j, hij, hi, hj⟩
    · exact .inl ⟨(List.prefix_cons_inj k).mpr hp, fun e => hne (List.cons.inj e).2⟩
    · exact .inr ⟨k :: front, i, j, hij, (List.prefix_cons_inj k).mpr hi,
        (List.prefix_cons_inj k).mpr hj⟩

theorem Path.behind_lt_behind (h : p < q) : p.behind < q.behind := by
  cases h with
  | nil => exact .nil
  | rel h => exact .rel (Nat.succ_lt_succ h)
  | cons h => exact .cons h

theorem Path.zero_cons_lt_behind (p : Path) (hq : q ≠ []) : 0 :: p < q.behind := by
  obtain ⟨i, q, rfl⟩ := List.exists_cons_of_ne_nil hq
  exact .rel (Nat.succ_pos i)

end

theorem pairwise_lt_pathsIn (nodes : List Node) : (pathsIn nodes).Pairwise (· < ·) := by
  have hbehind : ∀ ps : List Path, ps.Pairwise (· < ·) →
      (ps.map Path.behind).Pairwise (· < ·) := fun ps h => h.map _ fun _ _ => Path.behind_lt_behind
  have hafter : ∀ (p : Path) (rest : List Node), ∀ q ∈ (pathsIn rest).map Path.behind,
      0 :: p < q := by
    intro p rest q hq
    obtain ⟨r, hr, rfl⟩ := List.mem_map.mp hq
    exact Path.zero_cons_lt_behind p (ne_nil_of_mem_pathsIn hr)
  induction nodes using forestInduction with
  | nil => exact .nil
  | leaf content layout rest ih =>
    rw [pathsIn_leaf, List.pairwise_cons]
    exact ⟨hafter [] rest, hbehind _ ih⟩
  | block head children layout rest ihc ihr =>
    have hinside : ∀ q ∈ (pathsIn children).map (0 :: ·), [0] < q := by
      intro q hq
      obtain ⟨r, hr, rfl⟩ := List.mem_map.mp hq
      obtain ⟨i, r, rfl⟩ := List.exists_cons_of_ne_nil (ne_nil_of_mem_pathsIn hr)
      exact .cons .nil
    rw [pathsIn_block, List.pairwise_cons, List.pairwise_append]
    refine ⟨List.forall_mem_append.mpr ⟨hinside, hafter [] rest⟩, ihc.map _ fun _ _ h => .cons h,
      hbehind _ ihr, ?_⟩
    intro p hp q hq
    obtain ⟨r, -, rfl⟩ := List.mem_map.mp hp
    exact hafter r rest q hq

theorem isAtRule_iff {name : Text} {n : Node} :
    n.isAtRule name ↔ ∃ own, n.atRuleName? = some own ∧ own.equalsIgnoringCase name := by
  rw [Node.isAtRule]
  cases n.atRuleName? <;> simp

/-- The search for the at-rules of a name lists the paths that lead to one, each once and in
document order: those of all paths, in the order in which a walk meets what they lead to. -/
theorem atRulePaths_of_walk (name : Text) (nodes : List Node) :
    (∀ path, path ∈ atRulePaths name nodes ↔
      ∃ n own, nodeAt? nodes path = some n ∧ n.atRuleName? = some own ∧
        own.equalsIgnoringCase name) ∧
      (atRulePaths name nodes).Nodup ∧ (atRulePaths name nodes).Pairwise Path.Before ∧
      (∀ path, path ∈ pathsIn nodes ↔ (nodeAt? nodes path).isSome) ∧
      (pathsIn nodes).map (nodeAt? nodes) = (preorder nodes).map some ∧
      atRulePaths name nodes = (pathsIn nodes).filter fun path =>
        (nodeAt? nodes path).any (Node.isAtRule name) := by
  have hlt : (atRulePaths name nodes).Pairwise (· < ·) := by
    rw [atRulePaths_eq_filter]
    exact (pairwise_lt_pathsIn nodes).filter _
  have hnodup : (atRulePaths name nodes).Nodup := by
    refine hlt.imp ?_
    rintro p _ h rfl
    exact List.lt_irrefl p h
  refine ⟨?_, hnodup, hlt.imp Path.before_of_lt, fun path => mem_pathsIn_iff,
    map_nodeAt?_pathsIn nodes, atRulePaths_eq_filter name nodes⟩
  intro path
  rw [mem_atRulePaths_iff]
  simp only [isAtRule_iff, exists_and_left]

end StyleValues
