import StyleValues.Proofs.Interchange.MergedBlocks
import StyleValues.Proofs.Resolution.LegibleBlocks
import StyleValues.Proofs.Resolution.LegibleTexts

/-!
# Runs whose texts fit

A run writes names and values as entries, paths as selectors and values in the
place of tokens, all as they are. Each of these texts can be judged by itself,
at the place that it is written to. If all of them fit, then the text of the
resolved sheet is read as that sheet.
-/

set_option autoImplicit false

namespace StyleValues

section
variable (config : Config) (input : List Message) (sheet : Stylesheet)

/-- Whether a run adds entries to the top-level node with that index: it is the first export block
and has no entry for some bound name, or it is the first import block of a path in use. -/
def GetsEntries (i : Nat) (n : Node) : Prop :=
  (findExport? sheet.nodes = some i ∧
      ∃ b ∈ (published config input sheet).entries, b.name ∉ propertiesIn (n.children?.getD [])) ∨
    ∃ u ∈ usesIn sheet.nodes, findImport? sheet.nodes u.path = some i

/-- What lets the text of a resolved sheet be read as that sheet. -/
structure Fitting : Prop where
  /-- The bound names with the values that they are published with. -/
  exports : ∀ b ∈ (published config input sheet).entries, PlainEntry b.entry
  /-- The imported names with their placeholders. -/
  imports : ∀ a ∈ allottedIn config.stem sheet.nodes, PlainEntry (a.2, a.1.source)
  /-- The paths that the sheet does not have a block for. -/
  paths : ∀ u ∈ newUses sheet.nodes, SelfContained (importSelector u.path)
  /-- The scoped identifiers that are redirected. -/
  identifiers : (redirectsOf (collect config sheet).bindings input).AreTokens
  /-- The texts that tokens are replaced in. -/
  texts : ∀ n ∈ openNodes (prune valueKeyword sheet.nodes), (replacementOf config input sheet).Suits n
  /-- The blocks that entries are added to. -/
  blocks : ∀ i n, sheet.nodes[i]? = some n → GetsEntries config input sheet i n → n.Extensible

end

def Rereadable (sheet result : Stylesheet) : Prop :=
  ∀ p ∈ placedIn [] result.nodes, p ∉ placedIn [] sheet.nodes → p.ReadsBack

theorem length_entries_mergeBindings {bs : Bindings} {n : Node}
    (h : ∀ b ∈ bs.entries, b.name ∈ propertiesIn (n.children?.getD [])) :
    (n.mergeBindings bs).entries.length = n.entries.length := by
  rcases n with ⟨content, layout⟩ | ⟨_ | selector, children, layout⟩
  · rfl
  · rfl
  · have hu : undeclared children (bs.entries.map Binding.entry) = [] := by
      rw [undeclared, List.filter_eq_nil_iff, List.forall_mem_map]
      intro b hb
      rw [Bool.not_eq_true', Bool.not_eq_false, List.contains_iff_mem]
      exact h b hb
    have hl := congrArg List.length (propertiesIn_withValues bs.value? children)
    rw [propertiesIn, propertiesIn, List.length_map, List.length_map] at hl
    rw [Node.mergeBindings_rule, if_pos hu]
    exact hl

namespace Fitting

variable {config : Config} {input : List Message} {sheet : Stylesheet}
  (hf : Fitting config input sheet)
include hf

theorem extensible : Extensible config input sheet := by
  intro i n hn hlen
  refine hf.blocks i n hn ?_
  by_cases hx : isExportBlock n
  · rw [extendedAt_of_isExportBlock _ _ _ _ hx] at hlen
    split at hlen
    · next hfind =>
      refine Or.inl ⟨hfind, ?_⟩
      by_contra hall
      push Not at hall
      rw [length_entries_mergeBindings hall] at hlen
      exact Nat.lt_irrefl _ hlen
    · exact absurd hlen (Nat.lt_irrefl _)
  · have hfind : findExport? sheet.nodes ≠ some i := fun h => hx (isExportBlock_of_findExport? hn h)
    rw [extendedAt, withBindings, if_neg hfind, withEntries] at hlen
    split at hlen
    · exact absurd hlen (Nat.lt_irrefl _)
    · next path hpath =>
      split at hlen
      · next hg =>
        rw [Bool.and_eq_true, Bool.not_eq_true', List.isEmpty_eq_false_iff, decide_eq_true_iff] at hg
        have hu : path ∈ (usesIn sheet.nodes).map ImportUse.path := by
          by_contra hu
          exact hg.2 ((entriesFor_eq_nil_iff _).mpr hu)
        obtain ⟨u, hm, rfl⟩ := List.mem_map.mp hu
        exact Or.inr ⟨u, hm, hg.1⟩
      · exact absurd hlen (Nat.lt_irrefl _)

theorem legible_node (hl : Legible [] sheet.nodes) {n : Node} (hn : n ∈ rewriteOf config input sheet) :
    Legible [] [(replacementOf config input sheet).node n] := by
  obtain ⟨m, before, rfl, hb, hm⟩ :=
    exists_of_mem_rewriteOf hl hf.exports hf.imports hf.paths hn
  rw [Replacement.node_withBefore]
  refine legible_withBefore ?_ hb
  rcases hm with hm | ⟨i, k, hk, ha, rfl⟩
  · rw [Replacement.node_of_exchange _ (exchange_of_mem_generatedRules _ _ _ hm)]
    exact legible_generatedRules hf.exports hf.imports hf.paths m hm
  · have hlk : Legible [] [k] := hl.of_mem (List.mem_of_getElem? hk)
    by_cases hx : k.selector?.any isExchangeSelector
    · rw [Replacement.node_of_exchange _ (by rw [selector?_pruned, selector?_extendedAt]; exact hx)]
      exact (legible_extendedAt hf.exports hf.imports hlk).pruned valueKeyword
    · rw [extendedAt_of_not_exchange _ _ hk hx]
      have hmem : k.pruned valueKeyword ∈ prune valueKeyword sheet.nodes := by
        rw [prune_eq_map]
        exact List.mem_map_of_mem (List.mem_filter.mpr ⟨List.mem_of_getElem? hk, by simp [ha]⟩)
      refine legible_replacement hf.identifiers (hlk.pruned valueKeyword) fun m hm => ?_
      rw [openNodes, openNodes, List.append_nil] at hm
      exact hf.texts m (openNodes_of_mem hmem m hm)

theorem rereadable (hl : Legible [] sheet.nodes) :
    Rereadable sheet (resolve config input sheet).1 := by
  have hr : (resolve config input sheet).1.nodes =
      (replacementOf config input sheet).apply (rewriteOf config input sheet) := rfl
  have hn : Legible [] (resolve config input sheet).1.nodes := by
    rw [hr, apply_replacementOf, Replacement.nodes_eq_map]
    exact legible_of_forall (List.forall_mem_map.mpr fun n hn => hf.legible_node hl hn)
  exact fun p hp _ => hn p hp

end Fitting

end StyleValues
