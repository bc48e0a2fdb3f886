import StyleValues.Proofs.Interchange.Merging
import StyleValues.Proofs.Interchange.Selectors
import StyleValues.Proofs.Resolution.Preservation

/-!
# The blocks of one kind in a rewritten sheet

Blocks of one kind are picked out of the top level by a test that no statement
passes and that extending does not change. If the sheet has such blocks and
none is generated, they stay in their order and only the first one may be
extended; if it has none, those that are generated are all there are.
-/

set_option autoImplicit false

namespace StyleValues

theorem filter_zipIdx_of_findIdx? {α : Type} {p : α → Bool} {as : List α} {i : Nat}
    (h : as.findIdx? p = some i) (k : Nat) :
    ∃ a rest, (as.zipIdx k).filter (fun e => p e.1) = (a, i + k) :: rest ∧
      ∀ e ∈ rest, e.2 ≠ i + k := by
  induction as generalizing i k with
  | nil => cases h
  | cons a as ih =>
    rw [List.findIdx?_cons] at h
    rw [List.zipIdx_cons, List.filter_cons]
    by_cases hp : p a
    · rw [if_pos hp] at h
      cases h
      rw [if_pos hp, Nat.zero_add]
      refine ⟨a, _, rfl, ?_⟩
      intro e he
      have := List.le_snd_of_mem_zipIdx (List.mem_filter.mp he).1
      omega
    · rw [if_neg hp] at h
      obtain ⟨j, hj, rfl⟩ := Option.map_eq_some_iff.mp h
      rw [if_neg hp]
      obtain ⟨b, rest, e, hr⟩ := ih hj (k + 1)
      have hk : j + 1 + k = j + (k + 1) := by omega
      rw [hk]
      exact ⟨b, rest, e, hr⟩

theorem findIdx?_eq_none_of_filter {α : Type} {p : α → Bool} {as : List α} :
    as.findIdx? p = none ↔ as.filter p = [] := by
  rw [List.findIdx?_eq_none_iff, List.filter_eq_nil_iff]
  simp

theorem findIdx?_of_filter {α : Type} {p : α → Bool} {as rest : List α} {a : α}
    (h : as.filter p = a :: rest) : ∃ i, as.findIdx? p = some i ∧ as[i]? = some a := by
  induction as with
  | nil => cases h
  | cons b as ih =>
    rw [List.filter_cons] at h
    split at h
    · next hb =>
      cases h
      exact ⟨0, by rw [List.findIdx?_cons, if_pos hb], rfl⟩
    · next hb =>
      obtain ⟨i, hi, ha⟩ := ih h
      exact ⟨i + 1, by rw [List.findIdx?_cons, if_neg hb, hi]; rfl, ha⟩

section
variable {name : Text} {n : Node}

theorem selector?_of_isAtRule (h : n.isAtRule name) : n.selector? = none := by
  rcases n with ⟨content, layout⟩ | ⟨_ | selector, children, layout⟩
  · rfl
  · rfl
  · cases h

theorem selector?_pruned (name : Text) (n : Node) : (n.pruned name).selector? = n.selector? := by
  rcases n with ⟨content, layout⟩ | ⟨_ | selector, children, layout⟩ <;> rfl

theorem selector?_withBefore (before : Text) (n : Node) :
    (n.withBefore before).selector? = n.selector? := by
  rcases n with ⟨content, layout⟩ | ⟨_ | selector, children, layout⟩ <;> rfl

theorem isExportBlock_congr {m : Node} (h : m.selector? = n.selector?) :
    isExportBlock m = isExportBlock n := by
  rw [isExportBlock, h, isExportBlock]

theorem importPath?_congr {m : Node} (h : m.selector? = n.selector?) :
    m.importPath? = n.importPath? := by
  rw [Node.importPath?, h, Node.importPath?]

theorem selector?_isSome_of_isExportBlock (h : isExportBlock n) : n.selector?.isSome := by
  rw [isExportBlock] at h
  cases hs : n.selector? with
  | none => rw [hs] at h; cases h
  | some selector => rfl

theorem selector?_isSome_of_importPath? {path : Text} (h : n.importPath? = some path) :
    n.selector?.isSome := by
  rw [Node.importPath?] at h
  obtain ⟨selector, hs, -⟩ := Option.bind_eq_some_iff.mp h
  rw [hs]
  rfl

/-- No block is an import and an export block at once. -/
theorem importPath?_of_isExportBlock (h : isExportBlock n) : n.importPath? = none := by
  obtain ⟨selector, hs, he⟩ := Option.any_eq_true _ _ |>.mp h
  rw [Node.importPath?, hs, Option.bind_some, importPath?_of_isExportSelector he]

end

section
variable (stem : Text) (nodes : List Node) (bs : Bindings) {p : Node → Bool}

theorem filter_survivorAt (hs : ∀ n : Node, n.isAtRule valueKeyword → p n = false)
    (hx : ∀ i n, p ((extendedAt stem nodes bs i n).pruned valueKeyword) = p n) (e : Node × Nat) :
    (survivorAt stem nodes bs e.2 e.1).filter p =
      if p e.1 then [(extendedAt stem nodes bs e.2 e.1).pruned valueKeyword] else [] := by
  rw [survivorAt]
  by_cases ha : e.1.isAtRule valueKeyword
  · rw [if_pos ha, hs e.1 ha]
    rfl
  · rw [if_neg ha, List.filter_singleton, hx, Bool.cond_eq_ite]

theorem mem_generatedRules {i : Nat} {n : Node} (h : n ∈ generatedAt stem nodes bs i) :
    n ∈ generatedRules stem nodes bs := by
  rw [generatedAt, List.mem_append] at h
  rw [generatedRules, List.mem_append]
  rcases h with h | h
  · obtain ⟨u, hu, rfl⟩ := List.mem_map.mp h
    exact Or.inl (List.mem_map.mpr ⟨u, (List.mem_filter.mp hu).1, rfl⟩)
  · rw [exportRulesAt] at h
    split at h
    · next hn =>
      rw [Bool.and_eq_true] at hn
      rw [if_pos hn.1]
      exact Or.inr h
    · cases h

/-- If no such block is generated, the blocks are those of the sheet, extended one by one. -/
theorem filter_rewritten_of_old (hs : ∀ n : Node, n.isAtRule valueKeyword → p n = false)
    (hx : ∀ i n, p ((extendedAt stem nodes bs i n).pruned valueKeyword) = p n)
    (hg : (generatedRules stem nodes bs).filter p = []) :
    (rewritten stem nodes bs).filter p =
      (nodes.zipIdx.filter fun e => p e.1).map fun e =>
        (extendedAt stem nodes bs e.2 e.1).pruned valueKeyword := by
  have he : ∀ e : Node × Nat, (generatedAt stem nodes bs e.2 ++
      survivorAt stem nodes bs e.2 e.1).filter p =
        if p e.1 then [(extendedAt stem nodes bs e.2 e.1).pruned valueKeyword] else [] := by
    intro e
    have hn : (generatedAt stem nodes bs e.2).filter p = [] := by
      rw [List.filter_eq_nil_iff] at hg ⊢
      exact fun n hn => hg n (mem_generatedRules stem nodes bs hn)
    rw [List.filter_append, hn, List.nil_append, filter_survivorAt stem nodes bs hs hx]
  rw [rewritten, List.filter_flatMap, List.flatMap_congr fun e _ => he e]
  induction nodes.zipIdx with
  | nil => rfl
  | cons e l ih =>
    rw [List.flatMap_cons, ih, List.filter_cons]
    split
    · rfl
    · rfl

theorem filter_rewritten_of_findIdx? (hs : ∀ n : Node, n.isAtRule valueKeyword → p n = false)
    (hx : ∀ i n, p ((extendedAt stem nodes bs i n).pruned valueKeyword) = p n)
    (hg : (generatedRules stem nodes bs).filter p = []) {i : Nat} (hi : nodes.findIdx? p = some i) :
    ∃ first rest, nodes.filter p = first :: rest.map Prod.fst ∧
      (∀ e ∈ (first, i) :: rest, nodes[e.2]? = some e.1 ∧ p e.1) ∧ (∀ e ∈ rest, e.2 ≠ i) ∧
      (rewritten stem nodes bs).filter p =
        (extendedAt stem nodes bs i first).pruned valueKeyword ::
          rest.map fun e => (extendedAt stem nodes bs e.2 e.1).pruned valueKeyword := by
  obtain ⟨first, rest, hz, hr⟩ := filter_zipIdx_of_findIdx? hi 0
  rw [Nat.add_zero] at hz hr
  refine ⟨first, rest, ?_, ?_, hr, ?_⟩
  · have hc := congrArg (List.map Prod.fst) hz
    rw [← List.zipIdx_map_fst 0 nodes, List.filter_map]
    exact hc
  · intro e he
    rw [← hz] at he
    obtain ⟨he, hp⟩ := List.mem_filter.mp he
    exact ⟨List.mem_zipIdx_iff_getElem?.mp he, hp⟩
  · rw [filter_rewritten_of_old stem nodes bs hs hx hg, hz]
    rfl

end

/-- The top level of a sheet in a run, after the rewrite and before texts are replaced. -/
def rewriteOf (config : Config) (input : List Message) (sheet : Stylesheet) : List Node :=
  rewrite (statementsIn sheet.nodes) (published config input sheet) (collect config sheet).imports
    sheet.nodes

theorem filter_rewritten_of_new (config : Config) (input : List Message) (sheet : Stylesheet)
    {p : Node → Bool} (hs : ∀ n : Node, n.isAtRule valueKeyword → p n = false)
    (hx : ∀ i n, p ((extendedAt config.stem sheet.nodes (published config input sheet) i n).pruned
      valueKeyword) = p n)
    (hn : sheet.nodes.filter p = []) :
    ((rewritten config.stem sheet.nodes (published config input sheet)).filter p).Perm
      ((generatedRules config.stem sheet.nodes (published config input sheet)).filter p) := by
  have hp := (generatedAt_perm config input sheet).filter p
  have hf : ∀ e ∈ sheet.nodes.zipIdx,
      (generatedAt config.stem sheet.nodes (published config input sheet) e.2 ++
        survivorAt config.stem sheet.nodes (published config input sheet) e.2 e.1).filter p =
      (generatedAt config.stem sheet.nodes (published config input sheet) e.2).filter p := by
    intro e he
    have hm : e.1 ∈ sheet.nodes := (List.mem_zipIdx' he).2 ▸ List.getElem_mem _
    have hpe : ¬ p e.1 := List.filter_eq_nil_iff.mp hn e.1 hm
    rw [List.filter_append, filter_survivorAt _ _ _ hs hx, if_neg hpe, List.append_nil]
  have hr : (rewritten config.stem sheet.nodes (published config input sheet)).filter p =
      ((List.range sheet.nodes.length).flatMap
        (generatedAt config.stem sheet.nodes (published config input sheet))).filter p := by
    rw [rewritten, List.filter_flatMap, List.filter_flatMap, List.flatMap_congr hf,
      List.range_eq_range', ← List.zipIdx_map_snd 0 sheet.nodes, List.flatMap_map]
  rw [hr]
  exact hp

/-- What does not depend on the spacing in front of top-level nodes is known of a rewritten sheet. -/
theorem map_filter_rewrite {α : Type} (config : Config) (input : List Message) (sheet : Stylesheet)
    {p : Node → Bool} {g : Node → α} (hp : ∀ n : Node, p (n.withBefore []) = p n)
    (hg : ∀ n : Node, g (n.withBefore []) = g n) :
    ((rewriteOf config input sheet).filter p).map g =
      ((rewritten config.stem sheet.nodes (published config input sheet)).filter p).map g := by
  have h : ∀ ns : List Node, (ns.filter p).map g = ((ns.map (Node.withBefore [])).filter p).map g := by
    intro ns
    have hc : p ∘ Node.withBefore [] = p := funext hp
    rw [List.filter_map, List.map_map, hc]
    exact List.map_congr_left fun n _ => (hg n).symm
  rw [h, rewriteOf, imports_collect, rewrite_eq_rewritten, ← h]

end StyleValues
