import StyleValues.Proofs.Interchange.Placeholders
import StyleValues.Proofs.Resolution.Blocks

/-!
# The import blocks of a rewritten sheet

Every imported name has a placeholder of its own, and one entry for it in one
block: the first block that the sheet has for the path, or else the one new
block for it. All entries that the blocks had before are still there, in front
of the new ones.
-/

set_option autoImplicit false

namespace StyleValues

/-- The imported names of a sheet with the placeholders that they get, in document order. -/
def allottedIn (stem : Text) (nodes : List Node) : List (ImportUse × Text) :=
  allot (Imports.ofNodes stem nodes).allocator (usesIn nodes)

def newEntriesIn (stem : Text) (nodes : List Node) (path : Text) : List (Text × Text) :=
  ((allottedIn stem nodes).filter fun a => a.1.path == path).map fun a => (a.2, a.1.source)

def importBlocks (path : Text) (nodes : List Node) : List Node :=
  nodes.filter fun n => n.importPath? == some path

/-- The entries of several blocks after new ones were added to the first block, or to a
new block if there was none. -/
def addToFirst (new : List (Text × Text)) : List (List (Text × Text)) → List (List (Text × Text))
  | [] => if new.isEmpty then [] else [new]
  | entries :: rest => (entries ++ new) :: rest

theorem map_entriesIn (stem : Text) (nodes : List Node) (path : Text) :
    ((entriesIn stem nodes path).map fun e => (e.placeholder, e.source)) =
      newEntriesIn stem nodes path := by
  rw [entriesIn, entriesFor, List.map_map]
  rfl

theorem newEntriesIn_eq_nil_iff (stem : Text) (nodes : List Node) (path : Text) :
    newEntriesIn stem nodes path = [] ↔ path ∉ (usesIn nodes).map ImportUse.path := by
  rw [← map_entriesIn, List.map_eq_nil_iff]
  exact entriesFor_eq_nil_iff _

section
variable (path : Text)

theorem entries_withBefore (before : Text) (n : Node) :
    (n.withBefore before).entries = n.entries := by
  cases n <;> rfl

theorem importPath?_importRule (entries : List ImportEntry) :
    (importRule path entries).importPath? = some path := by
  have hs : (importRule path entries).selector? = some (importSelector path) :=
    selector?_addEntries _ _
  rw [Node.importPath?, hs, Option.bind_some, importPath?_importSelector]

theorem importPath?_exportRule (bs : Bindings) : (exportRule bs).importPath? = none :=
  importPath?_of_isExportSelector isExportSelector_exportSelector

theorem entries_importRule (entries : List ImportEntry) :
    (importRule path entries).entries = entries.map fun e => (e.placeholder, e.source) := by
  rw [importRule, entries_addEntries rfl]
  rfl

theorem entries_pruned (name : Text) (n : Node) : (n.pruned name).entries = n.entries := by
  cases n with
  | leaf content layout => rfl
  | block head children layout => exact declarationsIn_prune children name

end

theorem findImport?_eq_none_iff {nodes : List Node} {path : Text} :
    findImport? nodes path = none ↔ importBlocks path nodes = [] :=
  findIdx?_eq_none_of_filter

/-- The generated blocks of a path: one if the path is used and the sheet has no block for it. -/
theorem filter_generatedRules_importPath (stem : Text) (nodes : List Node) (bs : Bindings)
    (path : Text) :
    importBlocks path (generatedRules stem nodes bs) =
      if (findImport? nodes path).isNone && !(newEntriesIn stem nodes path).isEmpty then
        [importRule path (entriesIn stem nodes path)]
      else [] := by
  have hx : importBlocks path (if needsExport nodes bs then [exportRule bs] else []) = [] := by
    split
    · rw [importBlocks, List.filter_singleton, importPath?_exportRule]
      rfl
    · rfl
  have hu : (newUses nodes).filter (fun u => u.path == path) =
      ((usesIn nodes).find? fun u => u.path == path).toList.filter fun u =>
        (findImport? nodes u.path).isNone := by
    rw [← filter_firstUses, newUses, List.filter_filter, List.filter_filter]
    simp only [Bool.and_comm]
  have hi : importBlocks path ((newUses nodes).map fun u =>
      importRule u.path (entriesIn stem nodes u.path)) =
        ((newUses nodes).filter fun u => u.path == path).map fun u =>
          importRule u.path (entriesIn stem nodes u.path) := by
    rw [importBlocks, List.filter_map]
    congr 1
    apply List.filter_congr
    intro u _
    rw [Function.comp_apply, importPath?_importRule, Option.some_beq_some]
  rw [generatedRules, importBlocks, List.filter_append, ← importBlocks, ← importBlocks, hx, hi, hu,
    List.append_nil]
  cases hf : (usesIn nodes).find? fun u => u.path == path with
  | none =>
    have hn : newEntriesIn stem nodes path = [] := by
      rw [newEntriesIn_eq_nil_iff]
      intro hm
      obtain ⟨u, hm, e⟩ := List.mem_map.mp hm
      exact List.find?_eq_none.mp hf u hm (beq_iff_eq.mpr e)
    rw [hn]
    simp
  | some u =>
    have e : u.path = path := by simpa using List.find?_some hf
    have hn : newEntriesIn stem nodes path ≠ [] := by
      rw [Ne, newEntriesIn_eq_nil_iff, not_not]
      exact List.mem_map.mpr ⟨u, List.mem_of_find?_eq_some hf, e⟩
    have hne : (newEntriesIn stem nodes path).isEmpty = false := by
      rwa [Bool.eq_false_iff, Ne, List.isEmpty_iff]
    rw [hne, Option.toList_some, List.filter_singleton, e]
    cases (findImport? nodes path).isNone
    · rfl
    · simp [e]

theorem entries_extendedAt (stem : Text) {nodes : List Node} (bs : Bindings) {i : Nat} {n : Node}
    (hn : nodes[i]? = some n) {path : Text} (hp : n.importPath? = some path) :
    (extendedAt stem nodes bs i n).entries =
      n.entries ++ if findImport? nodes path = some i then newEntriesIn stem nodes path else [] := by
  have hx : findExport? nodes ≠ some i := by
    intro hf
    rw [importPath?_of_isExportBlock (isExportBlock_of_findExport? hn hf)] at hp
    cases hp
  have hs := selector?_isSome_of_importPath? hp
  rw [extendedAt, withBindings, if_neg hx, withEntries, hp]
  simp only
  by_cases hf : findImport? nodes path = some i
  · rw [if_pos hf]
    cases he : (entriesIn stem nodes path).isEmpty with
    | true =>
      have hn : newEntriesIn stem nodes path = [] := by
        rw [← map_entriesIn, List.isEmpty_iff.mp he]
        rfl
      rw [if_neg (by simp), hn, List.append_nil]
    | false => rw [if_pos (by simp [hf]), entries_addEntries hs, map_entriesIn]
  · rw [if_neg (by simp [hf]), if_neg hf, List.append_nil]

theorem entries_importBlocks_rewritten (config : Config) (input : List Message)
    (sheet : Stylesheet) (path : Text) :
    (importBlocks path (rewritten config.stem sheet.nodes (published config input sheet))).map
        Node.entries =
      addToFirst (newEntriesIn config.stem sheet.nodes path)
        ((importBlocks path sheet.nodes).map Node.entries) := by
  have hs : ∀ n : Node, n.isAtRule valueKeyword → (n.importPath? == some path) = false := by
    intro n hn
    rw [Node.importPath?, selector?_of_isAtRule hn]
    rfl
  have hx : ∀ (i : Nat) (n : Node),
      (((extendedAt config.stem sheet.nodes (published config input sheet) i n).pruned
        valueKeyword).importPath? == some path) = (n.importPath? == some path) := by
    intro i n
    rw [importPath?_congr (selector?_pruned _ _), importPath?_congr (selector?_extendedAt _ _ _ _ _)]
  cases hf : findImport? sheet.nodes path with
  | none =>
    have hp := filter_rewritten_of_new config input sheet hs hx (findImport?_eq_none_iff.mp hf)
    have hg := filter_generatedRules_importPath config.stem sheet.nodes
      (published config input sheet) path
    rw [← importBlocks, ← importBlocks, hg, hf] at hp
    rw [findImport?_eq_none_iff.mp hf, List.map_nil, addToFirst]
    cases he : (newEntriesIn config.stem sheet.nodes path).isEmpty with
    | true =>
      rw [he] at hp
      rw [List.perm_nil.mp hp]
      rfl
    | false =>
      rw [he] at hp
      rw [List.perm_singleton.mp hp, List.map_singleton, entries_importRule, map_entriesIn]
      rfl
  | some i =>
    have hg : importBlocks path
        (generatedRules config.stem sheet.nodes (published config input sheet)) = [] := by
      rw [filter_generatedRules_importPath, hf]
      rfl
    obtain ⟨first, rest, hm, hq, hr, hb⟩ := filter_rewritten_of_findIdx? config.stem sheet.nodes
      (published config input sheet) hs hx hg hf
    have he : ∀ e ∈ (first, i) :: rest, ((extendedAt config.stem sheet.nodes
        (published config input sheet) e.2 e.1).pruned valueKeyword).entries =
          e.1.entries ++ if findImport? sheet.nodes path = some e.2 then
            newEntriesIn config.stem sheet.nodes path else [] := by
      intro e he
      obtain ⟨hn, hp⟩ := hq e he
      rw [entries_pruned, entries_extendedAt config.stem _ hn (beq_iff_eq.mp hp)]
    rw [importBlocks, importBlocks, hb, hm, List.map_cons, List.map_cons, List.map_map, List.map_map,
      addToFirst]
    congr 1
    · rw [he _ (List.mem_cons_self ..), if_pos hf]
    · apply List.map_congr_left
      intro e hm
      have hne : findImport? sheet.nodes path ≠ some e.2 := by
        rw [hf]
        exact fun h => hr e hm (Option.some.inj h).symm
      rw [Function.comp_apply, Function.comp_apply, he e (List.mem_cons_of_mem _ hm), if_neg hne,
        List.append_nil]

/-- What a rewrite makes of the blocks that import from a path. -/
theorem entries_importBlocks_rewrite (config : Config) (input : List Message)
    (sheet : Stylesheet) (path : Text) :
    (importBlocks path (rewriteOf config input sheet)).map Node.entries =
      addToFirst (newEntriesIn config.stem sheet.nodes path)
        ((importBlocks path sheet.nodes).map Node.entries) := by
  rw [importBlocks, map_filter_rewrite config input sheet
    (fun n => by rw [importPath?_congr (selector?_withBefore [] n)]) (entries_withBefore [])]
  exact entries_importBlocks_rewritten config input sheet path

/-! ### Every placeholder stands in one place -/

def importEntries (nodes : List Node) : List (Text × Text) :=
  (nodes.filter fun n => n.importPath?.isSome).flatMap Node.entries

theorem flatMap_takenIn (nodes : List Node) :
    nodes.flatMap Imports.takenIn = (importEntries nodes).map Prod.fst := by
  induction nodes with
  | nil => rfl
  | cons n rest ih =>
    rw [List.flatMap_cons, ih, importEntries, importEntries, List.filter_cons, Imports.takenIn,
      ← Node.importPath?]
    split
    · rw [List.flatMap_cons, List.map_append]
      rfl
    · rfl

theorem flatten_addToFirst_perm (new : List (Text × Text)) (old : List (List (Text × Text))) :
    (addToFirst new old).flatten.Perm (old.flatten ++ new) := by
  rcases old with _ | ⟨entries, rest⟩
  · rw [addToFirst]
    split
    · next h => rw [List.isEmpty_iff.mp h]; exact List.Perm.refl _
    · simp
  · rw [addToFirst, List.flatten_cons, List.flatten_cons, List.append_assoc, List.append_assoc]
    exact List.perm_append_comm.append_left entries

theorem mem_importEntries {nodes : List Node} {e : Text × Text} :
    e ∈ importEntries nodes ↔ ∃ path, e ∈ ((importBlocks path nodes).map Node.entries).flatten := by
  rw [importEntries, List.mem_flatMap]
  constructor
  · rintro ⟨n, hn, he⟩
    obtain ⟨hn, hp⟩ := List.mem_filter.mp hn
    obtain ⟨path, hp⟩ := Option.isSome_iff_exists.mp hp
    refine ⟨path, List.mem_flatten.mpr ⟨n.entries, List.mem_map_of_mem ?_, he⟩⟩
    exact List.mem_filter.mpr ⟨hn, beq_iff_eq.mpr hp⟩
  · rintro ⟨path, he⟩
    obtain ⟨entries, hm, he⟩ := List.mem_flatten.mp he
    obtain ⟨n, hn, rfl⟩ := List.mem_map.mp hm
    obtain ⟨hn, hp⟩ := List.mem_filter.mp hn
    exact ⟨n, List.mem_filter.mpr ⟨hn, by rw [beq_iff_eq.mp hp]; rfl⟩, he⟩

/-- A property that is declared only in the blocks of one path is declared there as often
as in all blocks together. -/
theorem count_importEntries {nodes : List Node} {path property : Text}
    (h : ∀ n ∈ nodes, ∀ q, n.importPath? = some q → property ∈ n.entries.map Prod.fst → q = path) :
    ((importEntries nodes).map Prod.fst).count property =
      (((importBlocks path nodes).map Node.entries).flatten.map Prod.fst).count property := by
  induction nodes with
  | nil => rfl
  | cons n rest ih =>
    have ih := ih fun m hm => h m (List.mem_cons_of_mem _ hm)
    rw [importEntries] at ih ⊢
    rw [importBlocks] at ih ⊢
    rw [List.filter_cons, List.filter_cons]
    cases hp : n.importPath? with
    | none => simpa [hp] using ih
    | some q =>
      by_cases e : q = path
      · simp [e, ih]
      · have hn : property ∉ n.entries.map Prod.fst :=
          fun hm => e (h n (List.mem_cons_self ..) q hp hm)
        simp [e, ih, List.count_eq_zero_of_not_mem hn]

theorem mem_newEntriesIn {stem : Text} {nodes : List Node} {path : Text} {e : Text × Text} :
    e ∈ newEntriesIn stem nodes path ↔
      ∃ a ∈ allottedIn stem nodes, a.1.path = path ∧ e = (a.2, a.1.source) := by
  rw [newEntriesIn, List.mem_map]
  constructor
  · rintro ⟨a, ha, rfl⟩
    obtain ⟨ha, hp⟩ := List.mem_filter.mp ha
    exact ⟨a, ha, beq_iff_eq.mp hp, rfl⟩
  · rintro ⟨a, ha, hp, rfl⟩
    exact ⟨a, List.mem_filter.mpr ⟨ha, beq_iff_eq.mpr hp⟩, rfl⟩

theorem mem_head_addToFirst {new : List (Text × Text)} {e : Text × Text} (he : e ∈ new)
    (old : List (List (Text × Text))) :
    ∃ first rest, addToFirst new old = first :: rest ∧ e ∈ first := by
  cases old with
  | nil =>
    have hn : ¬ new.isEmpty := by
      rw [List.isEmpty_iff]
      exact List.ne_nil_of_mem he
    exact ⟨new, [], if_neg hn, he⟩
  | cons entries rest => exact ⟨_, _, rfl, List.mem_append_right entries he⟩

section
variable (config : Config) (input : List Message) (sheet : Stylesheet)

/-- The placeholders of a run differ from each other and from what its import blocks had. -/
theorem nodup_allottedIn : ((allottedIn config.stem sheet.nodes).map Prod.snd).Nodup ∧
    ∀ t ∈ (allottedIn config.stem sheet.nodes).map Prod.snd,
      t ∉ (importEntries sheet.nodes).map Prod.fst := by
  have h := nodup_allot (Imports.ofNodes config.stem sheet.nodes).allocator (usesIn sheet.nodes)
  have hw : (Imports.ofNodes config.stem sheet.nodes).allocator.taken =
      (importEntries sheet.nodes).map Prod.fst := flatMap_takenIn sheet.nodes
  rwa [hw] at h

variable {a : ImportUse × Text} (ha : a ∈ allottedIn config.stem sheet.nodes)
include ha

theorem placeholder_not_mem_old (path : Text) :
    a.2 ∉ ((importBlocks path sheet.nodes).map Node.entries).flatten.map Prod.fst := by
  intro hm
  obtain ⟨e, he, h2⟩ := List.mem_map.mp hm
  apply (nodup_allottedIn config sheet).2 a.2 (List.mem_map_of_mem ha)
  rw [← h2]
  exact List.mem_map_of_mem (mem_importEntries.mpr ⟨path, he⟩)

theorem path_of_placeholder {path : Text}
    (hm : a.2 ∈ ((importBlocks path (rewriteOf config input sheet)).map
      Node.entries).flatten.map Prod.fst) : path = a.1.path := by
  rw [entries_importBlocks_rewrite, (List.Perm.map Prod.fst (flatten_addToFirst_perm _ _)).mem_iff,
    List.map_append, List.mem_append] at hm
  obtain ⟨e, he, h2⟩ := List.mem_map.mp
    (hm.resolve_left (placeholder_not_mem_old config sheet ha path))
  obtain ⟨a', ha', hp, rfl⟩ := mem_newEntriesIn.mp he
  rw [← hp, List.inj_on_of_nodup_map (nodup_allottedIn config sheet).1 ha' ha h2]

theorem count_placeholder :
    ((importEntries (rewriteOf config input sheet)).map Prod.fst).count a.2 = 1 := by
  have hc : ((newEntriesIn config.stem sheet.nodes a.1.path).map Prod.fst).Nodup := by
    rw [newEntriesIn, List.map_map]
    exact (nodup_allottedIn config sheet).1.sublist (List.filter_sublist.map Prod.snd)
  have hnew : (a.2, a.1.source) ∈ newEntriesIn config.stem sheet.nodes a.1.path :=
    mem_newEntriesIn.mpr ⟨a, ha, rfl, rfl⟩
  have h : ∀ n ∈ rewriteOf config input sheet, ∀ q, n.importPath? = some q →
      a.2 ∈ n.entries.map Prod.fst → q = a.1.path := by
    intro n hn q hq hm
    apply path_of_placeholder config input sheet ha
    rw [List.map_flatten]
    exact List.mem_flatten.mpr ⟨_, List.mem_map_of_mem (List.mem_map_of_mem
      (List.mem_filter.mpr ⟨hn, beq_iff_eq.mpr hq⟩)), hm⟩
  rw [count_importEntries h, entries_importBlocks_rewrite,
    (List.Perm.map Prod.fst (flatten_addToFirst_perm _ _)).count_eq, List.map_append,
    List.count_append,
    List.count_eq_zero_of_not_mem (placeholder_not_mem_old config sheet ha a.1.path),
    List.count_eq_one_of_mem hc (List.mem_map_of_mem hnew)]

theorem mem_first_importBlock :
    ∃ first rest, importBlocks a.1.path (rewriteOf config input sheet) = first :: rest ∧
      (a.2, a.1.source) ∈ first.entries := by
  have hnew : (a.2, a.1.source) ∈ newEntriesIn config.stem sheet.nodes a.1.path :=
    mem_newEntriesIn.mpr ⟨a, ha, rfl, rfl⟩
  obtain ⟨entries, others, hx, hm⟩ := mem_head_addToFirst hnew
    ((importBlocks a.1.path sheet.nodes).map Node.entries)
  rw [← entries_importBlocks_rewrite config input] at hx
  obtain ⟨first, rest, hb, rfl, -⟩ := List.map_eq_cons_iff.mp hx
  exact ⟨first, rest, hb, hm⟩

end

/-- The imports of a run are complete. The placeholders it hands out differ from each other and from
all properties that the import blocks had. Of the blocks that import from a path the first one, or a new
one if there was none, has the new entries behind its old ones; the others have their old ones. So each
placeholder is declared once, in the first block of its path, for the name that was imported. -/
theorem imports_of_rewrite (config : Config) (input : List Message) (sheet : Stylesheet) :
    (collect config sheet).imports.allocator.taken =
        ((allottedIn config.stem sheet.nodes).map Prod.snd).reverse ++
          (importEntries sheet.nodes).map Prod.fst ∧
      ((allottedIn config.stem sheet.nodes).map Prod.snd).Nodup ∧
      (∀ t ∈ (allottedIn config.stem sheet.nodes).map Prod.snd,
        t ∉ (importEntries sheet.nodes).map Prod.fst) ∧
      (∀ path, (importBlocks path (rewriteOf config input sheet)).map Node.entries =
        addToFirst (newEntriesIn config.stem sheet.nodes path)
          ((importBlocks path sheet.nodes).map Node.entries)) ∧
      ∀ a ∈ allottedIn config.stem sheet.nodes,
        ((importEntries (rewriteOf config input sheet)).map Prod.fst).count a.2 = 1 ∧
          ∃ first rest, importBlocks a.1.path (rewriteOf config input sheet) = first :: rest ∧
            (a.2, a.1.source) ∈ first.entries := by
  have ht := taken_registerAll (.ofNodes config.stem sheet.nodes) (usesIn sheet.nodes)
  have hw : (Imports.ofNodes config.stem sheet.nodes).allocator.taken =
      (importEntries sheet.nodes).map Prod.fst := flatMap_takenIn sheet.nodes
  obtain ⟨hn, hf⟩ := nodup_allottedIn config sheet
  rw [hw] at ht
  refine ⟨by rw [imports_collect]; exact ht, hn, hf, entries_importBlocks_rewrite config input sheet,
    ?_⟩
  intro a ha
  exact ⟨count_placeholder config input sheet ha, mem_first_importBlock config input sheet ha⟩

end StyleValues
