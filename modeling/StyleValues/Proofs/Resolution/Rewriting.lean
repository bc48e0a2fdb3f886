import StyleValues.Proofs.Interchange.Extension
import StyleValues.Proofs.Resolution.Statements
import StyleValues.Proofs.Sheet.Removal

/-!
# What a rewrite leaves

The top level of a rewritten sheet, read off the sheet index by index: the new
blocks for the imports of the statements there, the export block if the last
statement stands there, and the node itself without the statements inside it.
The spacing in front of top-level nodes is left out of account.
-/

set_option autoImplicit false

namespace StyleValues

section
variable (stem : Text) (nodes : List Node) (bs : Bindings)

def entriesIn (path : Text) : List ImportEntry :=
  entriesFor path (allot (Imports.ofNodes stem nodes).allocator (usesIn nodes))

def importRule (path : Text) (entries : List ImportEntry) : Node :=
  (Node.rule (importSelector path) []).addEntries (entries.map fun e => (e.placeholder, e.source))

def newUses : List ImportUse :=
  (firstUses (usesIn nodes)).filter fun u => (findImport? nodes u.path).isNone

def importRulesAt (i : Nat) : List Node :=
  ((newUses nodes).filter fun u => u.anchor == i).map fun u =>
    importRule u.path (entriesIn stem nodes u.path)

def needsExport : Bool := (findExport? nodes).isNone && !bs.isEmpty

def exportRulesAt (i : Nat) : List Node :=
  if needsExport nodes bs && (statementsIn nodes).getLast?.any fun s => s.anchor == i then
    [exportRule bs]
  else []

def generatedAt (i : Nat) : List Node := importRulesAt stem nodes i ++ exportRulesAt nodes bs i

def generatedRules : List Node :=
  (newUses nodes).map (fun u => importRule u.path (entriesIn stem nodes u.path)) ++
    if needsExport nodes bs then [exportRule bs] else []

/-- The node with that index, with its new entries if it is an exchange block. -/
def extendedAt (i : Nat) (n : Node) : Node :=
  withBindings nodes bs i (withEntries nodes (entriesIn stem nodes) i n)

/-- A statement is gone; any other node stays without the statements inside it. -/
def survivorAt (i : Nat) (n : Node) : List Node :=
  if n.isAtRule valueKeyword then [] else [(extendedAt stem nodes bs i n).pruned valueKeyword]

def rewritten : List Node :=
  nodes.zipIdx.flatMap fun e =>
    generatedAt stem nodes bs e.2 ++ survivorAt stem nodes bs e.2 e.1

end

/-! ### Weaving -/

theorem withBefore_withBefore (n : Node) (s t : Text) :
    (n.withBefore s).withBefore t = n.withBefore t := by
  cases n <;> rfl

/-- Up to the spacing in front of its nodes, a woven list is put together index by index. -/
theorem weave_eq_flatMap (generated : Nat → List Node) (removed : Nat → Bool) (i : Nat)
    (carried : Option Text) (nodes : List Node) :
    (weave generated removed i carried nodes).map (Node.withBefore []) =
      ((nodes.zipIdx i).flatMap fun e =>
        generated e.2 ++ if removed e.2 then [] else [e.1]).map (Node.withBefore []) := by
  induction nodes generalizing i carried with
  | nil => rfl
  | cons n rest ih =>
    rw [weave, List.zipIdx_cons, List.flatMap_cons, List.map_append]
    rcases generated i with _ | ⟨first, more⟩
    · by_cases hr : removed i
      · simp [hr, ih]
      · simp [hr, ih]
    · by_cases hr : removed i
      · simp [hr, ih, withBefore_withBefore]
      · simp [hr, ih, withBefore_withBefore]

/-! ### The parts that are woven -/

theorem atRulePaths_extendedAt (name stem : Text) (nodes : List Node) (bs : Bindings) (i : Nat)
    (n : Node) : (extendedAt stem nodes bs i n).atRulePaths name = n.atRulePaths name := by
  rw [extendedAt, atRulePaths_withBindings, atRulePaths_withEntries]

theorem removePaths_extended (stem : Text) (nodes : List Node) (bs : Bindings) :
    removePaths (mergeExport bs
        (((Imports.ofNodes stem nodes).registerAll (usesIn nodes)).extendExisting nodes))
      (nestedPaths (statementsIn nodes)) =
      (nodes.mapIdx (extendedAt stem nodes bs)).map (Node.pruned valueKeyword) := by
  have hx : mergeExport bs
      (((Imports.ofNodes stem nodes).registerAll (usesIn nodes)).extendExisting nodes) =
        nodes.mapIdx (extendedAt stem nodes bs) := by
    rw [extendExisting_registerAll]
    change mergeExport bs (nodes.mapIdx (withEntries nodes (entriesIn stem nodes))) = _
    rw [mergeExport_eq_mapIdx bs (findExport?_withEntries nodes (entriesIn stem nodes)),
      List.mapIdx_mapIdx]
    rfl
  -- Extending adds no at-rules, so the paths found before it are those of the extended nodes.
  have hp : nestedPaths (statementsIn nodes) =
      (atRulePaths valueKeyword (nodes.mapIdx (extendedAt stem nodes bs))).filter
        fun path => decide (1 < path.length) := by
    rw [nestedPaths, map_path_statementsIn,
      atRulePaths_mapIdx valueKeyword (atRulePaths_extendedAt valueKeyword stem nodes bs)]
  rw [hx, hp, removePaths_nested]

theorem newRules_registerAll (stem : Text) (nodes : List Node) :
    ((Imports.ofNodes stem nodes).registerAll (usesIn nodes)).newRules =
      (newUses nodes).map fun u => (u.anchor, importRule u.path (entriesIn stem nodes u.path)) := by
  have hb : ((Imports.ofNodes stem nodes).registerAll (usesIn nodes)).newBlocks =
      (newUses nodes).map ((Imports.ofNodes stem nodes).blockFor (usesIn nodes)) := by
    rw [Imports.newBlocks, Imports.blocks_registerAll rfl, List.filter_map, newUses]
    congr 1
    apply List.filter_congr
    intro u _
    rw [← lookup_existing stem]
    rfl
  rw [Imports.newRules, hb, List.map_map]
  rfl

theorem anchoredAt_newRules (stem : Text) (nodes : List Node) (i : Nat) :
    anchoredAt ((Imports.ofNodes stem nodes).registerAll (usesIn nodes)).newRules i =
      importRulesAt stem nodes i := by
  rw [newRules_registerAll, anchoredAt, List.filter_map, List.map_map, importRulesAt]
  rfl

theorem newExport_eq (nodes : List Node) (bs : Bindings) :
    newExport nodes (statementsIn nodes) bs =
      if needsExport nodes bs then
        (statementsIn nodes).getLast?.toList.map fun s => (s.anchor, exportRule bs)
      else [] := by
  rw [newExport, needsExport, ← Option.not_isSome]
  cases (findExport? nodes).isSome with
  | true => rfl
  | false =>
    cases bs.isEmpty with
    | true => rfl
    | false => cases (statementsIn nodes).getLast? <;> rfl

theorem anchoredAt_newExport (nodes : List Node) (bs : Bindings) (i : Nat) :
    anchoredAt (newExport nodes (statementsIn nodes) bs) i = exportRulesAt nodes bs i := by
  rw [newExport_eq, exportRulesAt]
  cases needsExport nodes bs with
  | false => rfl
  | true =>
    cases (statementsIn nodes).getLast? with
    | none => rfl
    | some last =>
      by_cases h : last.anchor = i
      · simp [anchoredAt, h]
      · simp [anchoredAt, h]

theorem anchoredAt_append (generated generated' : List (Nat × Node)) (i : Nat) :
    anchoredAt (generated ++ generated') i = anchoredAt generated i ++ anchoredAt generated' i := by
  simp [anchoredAt]

theorem anchoredAt_generated (stem : Text) (nodes : List Node) (bs : Bindings) :
    anchoredAt (((Imports.ofNodes stem nodes).registerAll (usesIn nodes)).newRules ++
      newExport nodes (statementsIn nodes) bs) = generatedAt stem nodes bs := by
  funext i
  rw [anchoredAt_append, anchoredAt_newRules, anchoredAt_newExport, generatedAt]

theorem zipIdx_map_zipIdx (f : Node × Nat → Node) (nodes : List Node) :
    (nodes.zipIdx.map f).zipIdx = nodes.zipIdx.map fun e => (f e, e.2) := by
  apply List.ext_getElem?
  intro j
  simp [List.getElem?_zipIdx, Function.comp_def]

/-- What a rewrite leaves, for any bindings. -/
theorem rewrite_eq_rewritten (stem : Text) (nodes : List Node) (bs : Bindings) :
    (rewrite (statementsIn nodes) bs ((Imports.ofNodes stem nodes).registerAll (usesIn nodes))
      nodes).map (Node.withBefore []) = (rewritten stem nodes bs).map (Node.withBefore []) := by
  -- Index by index the two sides put in the same blocks and leave out the same nodes.
  rw [rewrite, anchoredAt_generated, weave_eq_flatMap, removePaths_extended, rewritten, List.mapIdx_eq_zipIdx_map,
    List.map_map, zipIdx_map_zipIdx, List.flatMap_map]
  congr 1
  apply List.flatMap_congr
  rintro ⟨n, i⟩ hn
  have hi : nodes[i]? = some n := by simpa using List.mem_zipIdx_iff_getElem?.mp hn
  rw [survivorAt, isStatementAt_statementsIn, hi, Option.any_some]
  rfl

/-! ### Every block finds its place -/

/-- Nodes whose anchors are below `n` are all met on the way to `n`, and only once. -/
theorem anchoredAt_perm {generated : List (Nat × Node)} {n : Nat}
    (h : ∀ entry ∈ generated, entry.1 < n) :
    ((List.range n).flatMap (anchoredAt generated)).Perm (generated.map Prod.snd) := by
  induction n generalizing generated with
  | zero =>
    have hn : generated = [] := by
      rw [List.eq_nil_iff_forall_not_mem]
      intro entry he
      exact absurd (h entry he) (Nat.not_lt_zero _)
    rw [hn]
    exact List.Perm.nil
  | succ n ih =>
    -- The nodes anchored at `n` come last; the others are anchored below `n`.
    have hb : (List.range n).flatMap (anchoredAt generated) =
        (List.range n).flatMap (anchoredAt (generated.filter fun entry => entry.1 < n)) := by
      apply List.flatMap_congr
      intro i hi
      have hi := List.mem_range.mp hi
      rw [anchoredAt, anchoredAt, List.filter_filter]
      congr 1
      apply List.filter_congr
      intro entry _
      by_cases e : entry.1 = i
      · simp [e, hi]
      · simp [e]
    have hl : generated.filter (fun entry => entry.1 == n) =
        generated.filter fun entry => !decide (entry.1 < n) := by
      apply List.filter_congr
      intro entry he
      have hlt := h entry he
      by_cases e : entry.1 = n
      · simp [e]
      · have hlt' : entry.1 < n := by omega
        simp [e, hlt']
    have hp := List.filter_append_perm (fun entry : Nat × Node => decide (entry.1 < n)) generated
    rw [List.range_succ, List.flatMap_append, hb, List.flatMap_singleton, anchoredAt, hl]
    refine List.Perm.trans ?_ (hp.map Prod.snd)
    rw [List.map_append]
    exact (ih (by simp)).append_right _

theorem anchor_lt_of_mem_newUses {nodes : List Node} {u : ImportUse} (h : u ∈ newUses nodes) :
    u.anchor < nodes.length := by
  have hu : u ∈ usesIn nodes := (firstUses_sublist _).mem (List.mem_filter.mp h).1
  obtain ⟨s, hs, hus⟩ := List.mem_flatMap.mp hu
  have ha : u.anchor = s.anchor := by
    rw [Statement.uses] at hus
    split at hus
    · obtain ⟨n, _, rfl⟩ := List.mem_map.mp hus
      rfl
    · cases hus
  rw [ha]
  exact anchor_lt hs

theorem published_of_statementsIn_nil (config : Config) (input : List Message)
    {sheet : Stylesheet} (h : statementsIn sheet.nodes = []) :
    (published config input sheet).isEmpty := by
  rw [published, collect, h]
  rfl

theorem anchor_lt_of_mem_newRules {stem : Text} {nodes : List Node} {entry : Nat × Node}
    (h : entry ∈ ((Imports.ofNodes stem nodes).registerAll (usesIn nodes)).newRules) :
    entry.1 < nodes.length := by
  rw [newRules_registerAll] at h
  obtain ⟨u, hu, rfl⟩ := List.mem_map.mp h
  exact anchor_lt_of_mem_newUses hu

theorem anchor_lt_of_mem_newExport {nodes : List Node} {bs : Bindings} {entry : Nat × Node}
    (h : entry ∈ newExport nodes (statementsIn nodes) bs) : entry.1 < nodes.length := by
  rw [newExport_eq] at h
  split at h
  · obtain ⟨s, hs, rfl⟩ := List.mem_map.mp h
    exact anchor_lt (List.mem_of_getLast? (Option.mem_toList.mp hs))
  · cases h

theorem map_snd_newExport (config : Config) (input : List Message) (sheet : Stylesheet) :
    (newExport sheet.nodes (statementsIn sheet.nodes) (published config input sheet)).map Prod.snd =
      if needsExport sheet.nodes (published config input sheet) then
        [exportRule (published config input sheet)]
      else [] := by
  rw [newExport_eq]
  split
  · next hn =>
    cases hs : (statementsIn sheet.nodes).getLast? with
    | some last => rfl
    | none =>
      have hb := published_of_statementsIn_nil config input (List.getLast?_eq_none_iff.mp hs)
      simp [needsExport, hb] at hn
  · rfl

/-- The new blocks of a run, read off place by place, are all of them. -/
theorem generatedAt_perm (config : Config) (input : List Message) (sheet : Stylesheet) :
    ((List.range sheet.nodes.length).flatMap
      (generatedAt config.stem sheet.nodes (published config input sheet))).Perm
      (generatedRules config.stem sheet.nodes (published config input sheet)) := by
  have hl : ∀ entry ∈
      ((Imports.ofNodes config.stem sheet.nodes).registerAll (usesIn sheet.nodes)).newRules ++
        newExport sheet.nodes (statementsIn sheet.nodes) (published config input sheet),
      entry.1 < sheet.nodes.length := by
    intro entry he
    rcases List.mem_append.mp he with he | he
    · exact anchor_lt_of_mem_newRules he
    · exact anchor_lt_of_mem_newExport he
  have hp := anchoredAt_perm hl
  rw [anchoredAt_generated, List.map_append, newRules_registerAll, List.map_map,
    map_snd_newExport] at hp
  exact hp

/-- What a run makes of the top level of a sheet: every top-level node with the blocks
in front of it that belong there, and of all the blocks each one exactly once. -/
theorem rewrite_of_run (config : Config) (input : List Message) (sheet : Stylesheet) :
    (rewrite (statementsIn sheet.nodes) (published config input sheet)
        (collect config sheet).imports sheet.nodes).map (Node.withBefore []) =
      (rewritten config.stem sheet.nodes (published config input sheet)).map
        (Node.withBefore []) ∧
    ((List.range sheet.nodes.length).flatMap
      (generatedAt config.stem sheet.nodes (published config input sheet))).Perm
      (generatedRules config.stem sheet.nodes (published config input sheet)) := by
  constructor
  · rw [imports_collect]
    exact rewrite_eq_rewritten config.stem sheet.nodes (published config input sheet)
  · exact generatedAt_perm config input sheet

end StyleValues
