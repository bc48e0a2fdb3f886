import StyleValues.Proofs.Resolution.ImportBlocks
import StyleValues.Proofs.Resolution.LegibleTexts

/-!
# The place of the export block

A rewrite leaves one export block with all that is published, the first one or
a new one at the last statement. Replacing texts might give another rule the
selector of an export block. If that happens to no rule in front of this
place, then the first export block is still the same.
-/

set_option autoImplicit false

namespace StyleValues

/-- The index of the first export block, or else that of the last statement. -/
def exportPlace (nodes : List Node) : Nat :=
  (findExport? nodes).getD (((statementsIn nodes).getLast?.map Statement.anchor).getD 0)

/-- Whether no rule in front of the export block gets the selector of one. -/
def FrontStays (config : Config) (input : List Message) (sheet : Stylesheet) : Prop :=
  ∀ (i : Nat) (selector : Text) (children : List Node) (layout : Layout),
    sheet.nodes[i]? = some (.block (.rule selector) children layout) → i < exportPlace sheet.nodes →
      ¬ isExchangeSelector selector → ¬ isExportSelector
        ((replacementOf config input sheet).text config.targets.selectors selector)

theorem findIdx?_append_cons {α : Type} {p : α → Bool} {front rest : List α} {a : α}
    (hf : ∀ b ∈ front, p b = false) (ha : p a) :
    (front ++ a :: rest).findIdx? p = some front.length := by
  rw [List.findIdx?_append, List.findIdx?_eq_none_iff.mpr hf, List.findIdx?_cons, if_pos ha]
  simp

section
variable {stem : Text} {nodes : List Node} {bs : Bindings}

/-- A node in front of the export block is a new import block, or was not an export block and stood in
front of the place. -/
def InFront (stem : Text) (nodes : List Node) (bs : Bindings) (n : Node) : Prop :=
  (∃ path, n.importPath? = some path) ∨ ∃ i k, i < exportPlace nodes ∧ nodes[i]? = some k ∧
    ¬ isExportBlock k ∧ n = (extendedAt stem nodes bs i k).pruned valueKeyword

theorem zipIdx_eq_append {i : Nat} {k : Node} (h : nodes[i]? = some k) :
    ∃ front rest, nodes.zipIdx = front ++ (k, i) :: rest ∧ ∀ e ∈ front, e.2 < i := by
  obtain ⟨hi, rfl⟩ := List.getElem?_eq_some_iff.mp h
  refine ⟨(nodes.take i).zipIdx, (nodes.drop (i + 1)).zipIdx (i + 1), ?_, ?_⟩
  · conv => lhs; rw [← List.take_append_drop i nodes, List.drop_eq_getElem_cons hi]
    rw [List.zipIdx_append, List.zipIdx_cons, List.length_take_of_le (Nat.le_of_lt hi), Nat.zero_add]
  · intro e he
    have hl := List.snd_lt_of_mem_zipIdx he
    rwa [List.length_take_of_le (Nat.le_of_lt hi)] at hl

section
variable {i : Nat} {k n : Node}

theorem not_isExportBlock_of_lt (hi : i < exportPlace nodes) (hk : nodes[i]? = some k) :
    ¬ isExportBlock k := by
  intro hx
  cases hf : findExport? nodes with
  | none =>
    have hn := List.findIdx?_eq_none_iff.mp hf k (List.mem_of_getElem? hk)
    rw [hx] at hn
    cases hn
  | some p =>
    obtain ⟨hp, -, hlt⟩ := List.findIdx?_eq_some_iff_getElem.mp hf
    rw [exportPlace, hf, Option.getD_some] at hi
    obtain ⟨hl, rfl⟩ := List.getElem?_eq_some_iff.mp hk
    exact hlt i hi hx

theorem exportRulesAt_of_lt (hi : i < exportPlace nodes) : exportRulesAt nodes bs i = [] := by
  rw [exportRulesAt, if_neg]
  rw [Bool.and_eq_true, needsExport, Bool.and_eq_true, Option.isNone_iff_eq_none]
  rintro ⟨⟨hf, -⟩, hl⟩
  rw [exportPlace, hf, Option.getD_none] at hi
  cases hg : (statementsIn nodes).getLast? with
  | none =>
    rw [hg] at hl
    cases hl
  | some last =>
    rw [hg, Option.any_some, beq_iff_eq] at hl
    rw [hg, Option.map_some, Option.getD_some, hl] at hi
    exact Nat.lt_irrefl _ hi

theorem inFront_of_mem_importRulesAt (h : n ∈ importRulesAt stem nodes i) : InFront stem nodes bs n := by
  obtain ⟨u, -, rfl⟩ := List.mem_map.mp h
  exact Or.inl ⟨u.path, importPath?_importRule u.path _⟩

theorem inFront_of_lt (hi : i < exportPlace nodes) (hk : nodes[i]? = some k)
    (h : n ∈ generatedAt stem nodes bs i ++ survivorAt stem nodes bs i k) : InFront stem nodes bs n := by
  rw [generatedAt, exportRulesAt_of_lt hi, List.append_nil, List.mem_append] at h
  rcases h with h | h
  · exact inFront_of_mem_importRulesAt h
  · rw [survivorAt] at h
    split at h
    · cases h
    · exact Or.inr ⟨i, k, hi, hk, not_isExportBlock_of_lt hi hk, List.mem_singleton.mp h⟩

/-- At the place stands the export block, new or extended, behind the import blocks. -/
theorem exists_at_exportPlace (hs : statementsIn nodes ≠ []) (hb : bs.isEmpty = false) :
    ∃ k block rest, nodes[exportPlace nodes]? = some k ∧ isExportBlock block ∧
      generatedAt stem nodes bs (exportPlace nodes) ++ survivorAt stem nodes bs (exportPlace nodes) k =
        importRulesAt stem nodes (exportPlace nodes) ++ block :: rest := by
  cases hf : findExport? nodes with
  | some p =>
    obtain ⟨hp, hx, -⟩ := List.findIdx?_eq_some_iff_getElem.mp hf
    have hplace : exportPlace nodes = p := by rw [exportPlace, hf, Option.getD_some]
    have hat : ¬ nodes[p].isAtRule valueKeyword := by
      intro ha
      have hn := selector?_of_isAtRule ha
      rw [isExportBlock, hn] at hx
      cases hx
    have hrules : exportRulesAt nodes bs p = [] := by
      rw [exportRulesAt, needsExport, hf]
      rfl
    refine ⟨nodes[p], (extendedAt stem nodes bs p nodes[p]).pruned valueKeyword, [], ?_, ?_, ?_⟩
    · rw [hplace]
      exact List.getElem?_eq_getElem hp
    · rw [isExportBlock, selector?_pruned, selector?_extendedAt]
      exact hx
    · rw [hplace, generatedAt, hrules, survivorAt, if_neg hat, List.append_nil]
  | none =>
    have hlast := List.getLast?_eq_some_getLast hs
    have hplace : exportPlace nodes = ((statementsIn nodes).getLast hs).anchor := by
      rw [exportPlace, hf, hlast]
      rfl
    have hlt : exportPlace nodes < nodes.length := by
      rw [hplace]
      exact anchor_lt (List.getLast_mem hs)
    have hrules : exportRulesAt nodes bs (exportPlace nodes) = [exportRule bs] := by
      rw [exportRulesAt, needsExport, hf, hlast, hplace, hb]
      simp
    refine ⟨_, exportRule bs, survivorAt stem nodes bs (exportPlace nodes) nodes[exportPlace nodes],
      List.getElem?_eq_getElem hlt, isExportSelector_exportSelector, ?_⟩
    rw [generatedAt, hrules, List.append_assoc, List.singleton_append]

end

/-- The export block of a rewritten sheet, with all that stands in front of it. -/
theorem exists_exportBlock (hs : statementsIn nodes ≠ []) (hb : bs.isEmpty = false) :
    ∃ front block rest, rewritten stem nodes bs = front ++ block :: rest ∧ isExportBlock block ∧
      ∀ n ∈ front, InFront stem nodes bs n := by
  obtain ⟨k, block, rest, hk, hx, he⟩ := @exists_at_exportPlace stem nodes bs hs hb
  obtain ⟨before, behind, hz, hlt⟩ := zipIdx_eq_append hk
  refine ⟨before.flatMap (fun e => generatedAt stem nodes bs e.2 ++ survivorAt stem nodes bs e.2 e.1) ++
    importRulesAt stem nodes (exportPlace nodes), block, rest ++ behind.flatMap fun e =>
      generatedAt stem nodes bs e.2 ++ survivorAt stem nodes bs e.2 e.1, ?_, hx, ?_⟩
  · rw [rewritten, hz, List.flatMap_append, List.flatMap_cons, he]
    simp
  · intro n hn
    rcases List.mem_append.mp hn with hn | hn
    · obtain ⟨e, hm, hn⟩ := List.mem_flatMap.mp hn
      have hm' : e ∈ nodes.zipIdx := by
        rw [hz]
        exact List.mem_append_left _ hm
      exact inFront_of_lt (hlt e hm) (List.mem_zipIdx_iff_getElem?.mp hm') hn
    · exact inFront_of_mem_importRulesAt hn

end

/-! ### After texts are replaced -/

section
variable {config : Config} {input : List Message} {sheet : Stylesheet}

theorem isExportBlock_withBefore (n : Node) (before : Text) :
    isExportBlock (n.withBefore before) = isExportBlock n := by
  rcases n with _ | ⟨_ | _, _, _⟩ <;> rfl

theorem findExport?_congr {ms ns : List Node}
    (h : ms.map (Node.withBefore []) = ns.map (Node.withBefore [])) :
    findExport? ms = findExport? ns := by
  have hp : isExportBlock ∘ Node.withBefore [] = isExportBlock :=
    funext fun n => isExportBlock_withBefore n []
  have hm : ∀ ns : List Node, findExport? (ns.map (Node.withBefore [])) = findExport? ns := by
    intro ns
    rw [findExport?, List.findIdx?_map, hp]
    rfl
  rw [← hm, h, hm]

theorem not_isExportBlock_of_inFront (hk : FrontStays config input sheet) {n : Node}
    (h : InFront config.stem sheet.nodes (published config input sheet) n) :
    isExportBlock n = false ∧ isExportBlock ((replacementOf config input sheet).node n) = false := by
  have hexchange : n.selector?.any isExchangeSelector → isExportBlock n = false →
      isExportBlock n = false ∧ isExportBlock ((replacementOf config input sheet).node n) = false := by
    intro hx hn
    rw [Replacement.node_of_exchange _ hx]
    exact ⟨hn, hn⟩
  rcases h with ⟨path, hp⟩ | ⟨i, k, hi, hk', hx, rfl⟩
  · refine hexchange (exchange_of_importPath? hp) ?_
    rw [Bool.eq_false_iff]
    intro hx
    rw [importPath?_of_isExportBlock hx] at hp
    cases hp
  · have hn : isExportBlock ((extendedAt config.stem sheet.nodes (published config input sheet) i
        k).pruned valueKeyword) = false := by
      rw [isExportBlock, selector?_pruned, selector?_extendedAt]
      exact Bool.eq_false_iff.mpr hx
    by_cases he : k.selector?.any isExchangeSelector
    · exact hexchange (by rw [selector?_pruned, selector?_extendedAt]; exact he) hn
    · refine ⟨hn, ?_⟩
      rw [extendedAt_of_not_exchange _ _ hk' he]
      rcases k with ⟨content, layout⟩ | ⟨_ | selector, children, layout⟩
      · rfl
      · rfl
      · have hs : ¬ isExchangeSelector selector := he
        have hnode : (replacementOf config input sheet).node
            (Node.pruned valueKeyword (.block (.rule selector) children layout)) = _ := if_neg he
        rw [hnode]
        exact Bool.eq_false_iff.mpr (hk i selector children layout hk' hi hs)

/-- The first export block is found where it was put. -/
theorem findExport?_resolve (hk : FrontStays config input sheet)
    (hm : (published config input sheet).isEmpty = false) :
    findExport? (resolve config input sheet).1.nodes = findExport? (rewriteOf config input sheet) := by
  have hs : statementsIn sheet.nodes ≠ [] := by
    intro hs
    rw [published_of_statementsIn_nil config input hs] at hm
    cases hm
  obtain ⟨front, block, rest, he, hx, hf⟩ := @exists_exportBlock config.stem _ _ hs hm
  have hb : (rewriteOf config input sheet).map (Node.withBefore []) =
      (front ++ block :: rest).map (Node.withBefore []) := by
    rw [rewriteOf, imports_collect, rewrite_eq_rewritten, he]
  have hr : (resolve config input sheet).1.nodes =
      (replacementOf config input sheet).apply (rewriteOf config input sheet) := rfl
  have hblock : (replacementOf config input sheet).node block = block :=
    Replacement.node_of_exchange _ (exchange_of_isExportBlock hx)
  have hnodes : ((rewriteOf config input sheet).map (replacementOf config input sheet).node).map
      (Node.withBefore []) = ((front ++ block :: rest).map (replacementOf config input sheet).node).map
        (Node.withBefore []) := by
    have hc : Node.withBefore [] ∘ (replacementOf config input sheet).node =
        (replacementOf config input sheet).node ∘ Node.withBefore [] :=
      funext fun n => ((replacementOf config input sheet).node_withBefore n []).symm
    rw [List.map_map, List.map_map, hc, ← List.map_map, ← List.map_map, hb]
  rw [hr, apply_replacementOf, Replacement.nodes_eq_map, findExport?_congr hnodes,
    findExport?_congr hb, List.map_append, List.map_cons, hblock, findExport?, findExport?,
    findIdx?_append_cons (fun n hn => (not_isExportBlock_of_inFront hk (hf n hn)).1) hx,
    findIdx?_append_cons (List.forall_mem_map.mpr fun n hn =>
      (not_isExportBlock_of_inFront hk (hf n hn)).2) hx, List.length_map]

end

end StyleValues
