import StyleValues.Proofs.Resolution.Blocks
import StyleValues.Proofs.Resolution.NothingDefined

/-!
# The export block of a resolved sheet

The messages of a run and the export block that it writes say the same. The
block is the first one of the sheet, with all that it had, or a new one that
has nothing but the messages; and no text in it is replaced after it was
written.
-/

set_option autoImplicit false

namespace StyleValues

def Message.entry : Message → Text × Text
  | .scopedName name value => (name, value)
  | .boundName _ name value => (name, value)

/-- What a node is without its layout and that of the nodes directly in it. -/
def Node.bare : Node → Node
  | .leaf content _ => .leaf content {}
  | .block head children _ => .block head (children.map (Node.withLayout {})) {}

def Node.exporting (entries : List (Text × Text)) : Node → Node
  | .leaf content layout => .leaf content layout
  | .block head children layout =>
    .block head (mergedWith (lastIndent? children) entries (prune valueKeyword children)) layout

/-- The export blocks of a sheet after entries were merged into the first one, or a new
block if there is none. -/
def exportToFirst (entries : List (Text × Text)) : List Node → List Node
  | [] =>
    if entries.isEmpty then []
    else [.rule exportSelector (entries.map fun e => .declaration e.1 e.2)]
  | first :: rest => first.exporting entries :: rest.map (Node.pruned valueKeyword)

def Report.entries (r : Report) : List (Text × Text) := r.messages.map Message.entry

theorem map_entry_publish (config : Config) (bs : Bindings) :
    (publish config bs).map Message.entry = bs.entries.map Binding.entry := by
  rw [publish, List.map_map]
  rfl

section
variable (name : Text)

theorem map_withLayout_prune (nodes : List Node) :
    (prune name nodes).map (Node.withLayout {}) = prune name (nodes.map (Node.withLayout {})) := by
  induction nodes with
  | nil => rfl
  | cons n rest ih =>
    have ha : (n.withLayout {}).isAtRule name = n.isAtRule name := by
      rcases n with ⟨_ | _ | _, layout⟩ | ⟨_ | _, children, layout⟩ <;> rfl
    have hp : (n.pruned name).withLayout {} = (n.withLayout {}).pruned name := by
      cases n <;> rfl
    rw [prune, List.map_cons, prune, ha]
    split
    · exact ih
    · rw [List.map_cons, ih, hp]

end

/-- Up to layout, merging bindings and leaving the statements out is one step. -/
theorem bare_pruned_mergeBindings (bs : Bindings) {n : Node} (h : n.selector?.isSome) :
    ((n.mergeBindings bs).pruned valueKeyword).bare =
      (n.exporting (bs.entries.map Binding.entry)).bare := by
  rcases n with ⟨content, layout⟩ | ⟨_ | selector, children, layout⟩
  · cases h
  · cases h
  · rw [Node.mergeBindings, mergeAll_eq _ _ bs.names_nodup, Node.exporting, ← prune_mergedWith]
    simp only
    split
    · rw [extendedRule, Node.pruned, Node.bare, Node.bare, map_withLayout_prune,
        map_withLayout_terminateAll, ← map_withLayout_prune]
    · rfl

/-- An export block takes the bindings if it is the first one, and nothing otherwise. -/
theorem extendedAt_of_isExportBlock (stem : Text) (nodes : List Node) (bs : Bindings) (i : Nat)
    {n : Node} (h : isExportBlock n) :
    extendedAt stem nodes bs i n = if findExport? nodes = some i then n.mergeBindings bs else n := by
  have hp := importPath?_of_isExportBlock h
  rw [extendedAt, withBindings, withEntries, hp]

theorem filter_generatedRules_export (stem : Text) (nodes : List Node) (bs : Bindings) :
    (generatedRules stem nodes bs).filter isExportBlock =
      if needsExport nodes bs then [exportRule bs] else [] := by
  have hi : ((newUses nodes).map fun u =>
      importRule u.path (entriesIn stem nodes u.path)).filter isExportBlock = [] := by
    rw [List.filter_eq_nil_iff]
    intro n hn
    obtain ⟨u, _, rfl⟩ := List.mem_map.mp hn
    have hs : (importRule u.path (entriesIn stem nodes u.path)).selector? =
        some (importSelector u.path) := selector?_addEntries _ _
    rw [isExportBlock, hs, Option.any_some, isExportSelector_importSelector]
    exact Bool.false_ne_true
  have hx : isExportBlock (exportRule bs) = true := isExportSelector_exportSelector
  rw [generatedRules, List.filter_append, hi, List.nil_append]
  split
  · rw [List.filter_singleton, hx]
    rfl
  · rfl

theorem bare_export_rewrite (config : Config) (input : List Message) (sheet : Stylesheet) :
    ((rewriteOf config input sheet).filter isExportBlock).map Node.bare =
      (exportToFirst ((published config input sheet).entries.map Binding.entry)
        (sheet.nodes.filter isExportBlock)).map Node.bare := by
  have hb : ∀ n : Node, isExportBlock (n.withBefore []) = isExportBlock n :=
    fun n => isExportBlock_congr (selector?_withBefore [] n)
  have hs : ∀ n : Node, n.isAtRule valueKeyword → isExportBlock n = false :=
    fun n hn => by rw [isExportBlock, selector?_of_isAtRule hn]; rfl
  have hx : ∀ (i : Nat) (n : Node),
      isExportBlock ((extendedAt config.stem sheet.nodes (published config input sheet) i n).pruned
        valueKeyword) = isExportBlock n := by
    intro i n
    apply isExportBlock_congr
    rw [selector?_pruned, selector?_extendedAt]
  rw [map_filter_rewrite config input sheet hb fun n => by cases n <;> rfl]
  cases hf : findExport? sheet.nodes with
  | none =>
    have hn := findIdx?_eq_none_of_filter.mp hf
    have hp := filter_rewritten_of_new config input sheet hs hx hn
    rw [filter_generatedRules_export, needsExport, hf] at hp
    rw [hn, exportToFirst, List.isEmpty_map]
    cases he : (published config input sheet).isEmpty with
    | true =>
      have he' : (published config input sheet).entries.isEmpty := he
      rw [he] at hp
      rw [List.perm_nil.mp hp, if_pos he']
    | false =>
      rw [he] at hp
      have he' : ¬ (published config input sheet).entries.isEmpty := by
        rw [← Bindings.isEmpty, he]
        exact Bool.false_ne_true
      rw [List.perm_singleton.mp hp, if_neg he', List.map_map]
      rfl
  | some i =>
    have hg : (generatedRules config.stem sheet.nodes (published config input sheet)).filter
        isExportBlock = [] := by
      rw [filter_generatedRules_export, needsExport, hf]
      rfl
    obtain ⟨first, rest, hm, hq, hr, hw⟩ := filter_rewritten_of_findIdx? config.stem sheet.nodes
      (published config input sheet) hs hx hg hf
    rw [hw, hm, List.map_cons, exportToFirst, List.map_cons, List.map_map, List.map_map,
      List.map_map]
    congr 1
    · have he := (hq _ (List.mem_cons_self ..)).2
      rw [extendedAt_of_isExportBlock _ _ _ _ he, if_pos hf]
      exact bare_pruned_mergeBindings _ (selector?_isSome_of_isExportBlock he)
    · apply List.map_congr_left
      intro e he
      have hne : findExport? sheet.nodes ≠ some e.2 := by
        rw [hf]
        exact fun h => hr e he (Option.some.inj h).symm
      simp only [Function.comp_apply]
      rw [extendedAt_of_isExportBlock _ _ _ _ (hq e (List.mem_cons_of_mem _ he)).2, if_neg hne]

theorem entries_resolve (config : Config) (input : List Message) (sheet : Stylesheet) :
    (resolve config input sheet).2.entries =
      (published config input sheet).entries.map Binding.entry :=
  map_entry_publish config (published config input sheet)

theorem nodup_entries_resolve (config : Config) (input : List Message) (sheet : Stylesheet) :
    ((resolve config input sheet).2.entries.map Prod.fst).Nodup := by
  rw [entries_resolve, map_fst_entry]
  exact (published config input sheet).names_nodup

theorem entries_bare (n : Node) : n.bare.entries = n.entries := by
  have h : ∀ ns : List Node, declarationsIn (ns.map (Node.withLayout {})) = declarationsIn ns := by
    intro ns
    rw [declarationsIn, declarationsIn, List.filterMap_map]
    apply List.filterMap_congr
    rintro (⟨_ | _ | _, layout⟩ | ⟨head, children, layout⟩) _ <;> rfl
  cases n with
  | leaf content layout => rfl
  | block head children layout => exact h children

/-- The first export block that a run leaves says what the messages say. -/
theorem lookup_exportToFirst {entries : List (Text × Text)} (h : (entries.map Prod.fst).Nodup)
    {blocks : List Node} (hb : ∀ n ∈ blocks, isExportBlock n) {e : Text × Text} (he : e ∈ entries) :
    ∃ block rest, exportToFirst entries blocks = block :: rest ∧
      block.entries.lookup e.1 = some e.2 := by
  cases blocks with
  | nil =>
    have hn : ¬ entries.isEmpty := by
      rw [List.isEmpty_iff]
      exact List.ne_nil_of_mem he
    refine ⟨_, [], if_neg hn, ?_⟩
    have hd : (Node.rule exportSelector (entries.map fun e => .declaration e.1 e.2)).entries =
        entries := by
      rw [Node.entries, Node.rule]
      exact declarationsIn_newEntries none entries
    rw [hd]
    exact lookup_of_mem h he
  | cons first rest =>
    refine ⟨_, _, rfl, ?_⟩
    have hf := hb first (List.mem_cons_self ..)
    rcases first with ⟨content, layout⟩ | ⟨head, children, layout⟩
    · cases hf
    · exact lookup_mergedWith _ _ h he

theorem getElem?_resolve_of_isExportBlock {config : Config} {input : List Message}
    {sheet : Stylesheet} {i : Nat} {n : Node} (hn : (rewriteOf config input sheet)[i]? = some n)
    (h : isExportBlock n) : (resolve config input sheet).1.nodes[i]? = some n := by
  have hr : (resolve config input sheet).1.nodes =
      (replacementOf config input sheet).apply (rewriteOf config input sheet) := rfl
  have ha := (replacementOf config input sheet).apply_exchange (exchange_of_isExportBlock h)
  rw [Replacement.apply_eq_map, List.map_singleton] at ha
  rw [hr, Replacement.apply_eq_map, List.getElem?_map, hn, Option.map_some]
  exact congrArg some (List.cons.inj ha).1

theorem bare_export_rewriteOf (config : Config) (input : List Message) (sheet : Stylesheet) :
    ((rewriteOf config input sheet).filter isExportBlock).map Node.bare =
      (exportToFirst (resolve config input sheet).2.entries
        (sheet.nodes.filter isExportBlock)).map Node.bare := by
  rw [entries_resolve]
  exact bare_export_rewrite config input sheet

/-- The first export block after the rewrite has the published value of every published name. -/
theorem lookup_export_rewriteOf (config : Config) (input : List Message) (sheet : Stylesheet)
    {e : Text × Text} (he : e ∈ (resolve config input sheet).2.entries) :
    ∃ block rest, (rewriteOf config input sheet).filter isExportBlock = block :: rest ∧
      block.entries.lookup e.1 = some e.2 := by
  have hb := bare_export_rewriteOf config input sheet
  obtain ⟨first, others, hx, hl⟩ := lookup_exportToFirst (nodup_entries_resolve config input sheet)
    (fun n hn => (List.mem_filter.mp hn).2) he
  rw [hx, List.map_cons] at hb
  obtain ⟨block, rest, hf, h1, -⟩ := List.map_eq_cons_iff.mp hb
  refine ⟨block, rest, hf, ?_⟩
  rw [← entries_bare, h1, entries_bare]
  exact hl

theorem lookup_export_resolve {config : Config} {input : List Message} {sheet : Stylesheet}
    {e : Text × Text} (he : e ∈ (resolve config input sheet).2.entries) :
    ∃ i block, findExport? (rewriteOf config input sheet) = some i ∧
      (resolve config input sheet).1.nodes[i]? = some block ∧
        block.entries.lookup e.1 = some e.2 := by
  obtain ⟨block, rest, hf, hl⟩ := lookup_export_rewriteOf config input sheet he
  obtain ⟨i, hi, hn⟩ := findIdx?_of_filter hf
  have hx : isExportBlock block := (List.mem_filter.mp (hf ▸ List.mem_cons_self ..)).2
  exact ⟨i, block, hi, getElem?_resolve_of_isExportBlock hn hx, hl⟩

theorem rejected_of_messages {config : Config} {input : List Message} {sheet : Stylesheet}
    (h : (resolve config input sheet).2.messages = []) :
    ∀ n ∈ preorder sheet.nodes, n.isAtRule valueKeyword → Rejected (n.params?.getD []) := by
  have hc : (collect config sheet).bindings.entries = [] :=
    List.map_eq_nil_iff.mp (List.map_eq_nil_iff.mp h)
  exact rejected_of_collect hc

/-- The messages of a run have names of their own, and the export block says what they say. -/
theorem exports_of_resolve (config : Config) (input : List Message) (sheet : Stylesheet) :
    ((resolve config input sheet).2.entries.map Prod.fst).Nodup ∧
      ((rewriteOf config input sheet).filter isExportBlock).map Node.bare =
        (exportToFirst (resolve config input sheet).2.entries
          (sheet.nodes.filter isExportBlock)).map Node.bare ∧
      (∀ (i : Nat) (n : Node), (rewriteOf config input sheet)[i]? = some n → isExportBlock n →
        (resolve config input sheet).1.nodes[i]? = some n) ∧
      (∀ e ∈ (resolve config input sheet).2.entries,
        ∃ block rest, (rewriteOf config input sheet).filter isExportBlock = block :: rest ∧
          block.entries.lookup e.1 = some e.2) ∧
      ((resolve config input sheet).2.messages = [] →
        (resolve config input sheet).1 = { sheet with nodes := prune valueKeyword sheet.nodes }) := by
  refine ⟨nodup_entries_resolve config input sheet, bare_export_rewriteOf config input sheet,
    ?_, ?_, ?_⟩
  · intro i n hn h
    exact getElem?_resolve_of_isExportBlock hn h
  · intro e he
    exact lookup_export_rewriteOf config input sheet he
  · intro hm
    rw [resolve_of_rejected config input (rejected_of_messages hm)]

end StyleValues
