import Mathlib.Data.List.Basic
import StyleValues.Proofs.Interchange.Grouping
import StyleValues.Proofs.Sheet.Forest
import StyleValues.Resolution.Rewrite

/-!
# Extending the exchange blocks

Extending is local: every top-level node is changed by itself, an import
block by the entries of its path if it is the first block of that path, and
the first export block by the bindings. New entries stand behind the old
children and are declarations, so no path to an at-rule changes.
-/

set_option autoImplicit false

namespace StyleValues

def Node.importPath? (n : Node) : Option Text := n.selector?.bind StyleValues.importPath?

def findImport? (nodes : List Node) (path : Text) : Option Nat :=
  nodes.findIdx? fun n => n.importPath? == some path

theorem findImport?_cons (n : Node) (rest : List Node) (path : Text) :
    findImport? (n :: rest) path =
      if n.importPath? = some path then some 0 else (findImport? rest path).map (· + 1) := by
  rw [findImport?, List.findIdx?_cons, ← findImport?]
  by_cases h : n.importPath? = some path
  · simp [h]
  · simp [h]

theorem importPath?_of_findImport? {nodes : List Node} {path : Text} {i : Nat}
    (h : findImport? nodes path = some i) : ∃ n, nodes[i]? = some n ∧ n.importPath? = some path := by
  obtain ⟨hi, hp, _⟩ := List.findIdx?_eq_some_iff_getElem.mp h
  exact ⟨nodes[i], List.getElem?_eq_getElem hi, beq_iff_eq.mp hp⟩

theorem lookup_existingBlocks (nodes : List Node) (path : Text) (k : Nat) :
    ((nodes.zipIdx k).filterMap Imports.existingBlock?).lookup path =
      (findImport? nodes path).map (· + k) := by
  induction nodes generalizing k with
  | nil => rfl
  | cons n rest ih =>
    have hs : ((findImport? rest path).map (· + 1)).map (· + k) =
        (findImport? rest path).map (· + (k + 1)) := by
      rw [Option.map_map]
      apply congrArg (Option.map · _)
      funext i
      simp only [Function.comp_apply]
      omega
    have hx : Imports.existingBlock? (n, k) = n.importPath?.map fun p => (p, k) := rfl
    rw [List.zipIdx_cons, List.filterMap_cons, hx, findImport?_cons]
    cases hp : n.importPath? with
    | none => simpa [hs] using ih (k + 1)
    | some p =>
      by_cases e : p = path
      · simp [e]
      · have e' : (path == p) = false := beq_eq_false_iff_ne.mpr fun e' => e e'.symm
        simpa [List.lookup_cons, e, e', hs] using ih (k + 1)

/-- A run knows the import blocks of a sheet by the first one of each path. -/
theorem lookup_existing (stem : Text) (nodes : List Node) (path : Text) :
    (Imports.ofNodes stem nodes).existing.lookup path = findImport? nodes path := by
  have h := lookup_existingBlocks nodes path 0
  simpa [Imports.ofNodes] using h

/-! ### Every node by itself -/

def withEntries (nodes : List Node) (entries : Text → List ImportEntry) (i : Nat) (n : Node) :
    Node :=
  match n.importPath? with
  | none => n
  | some path =>
    if findImport? nodes path = some i && !(entries path).isEmpty then
      n.addEntries ((entries path).map fun e => (e.placeholder, e.source))
    else n

def withBindings (nodes : List Node) (bs : Bindings) (i : Nat) (n : Node) : Node :=
  if findExport? nodes = some i then n.mergeBindings bs else n

theorem getElem?_extendExisting (r : Imports) (nodes : List Node) (j : Nat) :
    (r.extendExisting nodes)[j]? =
      nodes[j]?.map fun n => (r.blocks.filter fun b => b.existing == some j).foldl
        (fun n b => n.addEntries b.declarations) n := by
  rw [Imports.extendExisting]
  induction r.blocks generalizing nodes with
  | nil => simp
  | cons b blocks ih =>
    rw [List.foldl_cons, ih]
    cases he : b.existing with
    | none => simp [he]
    | some i =>
      rw [List.getElem?_modify]
      cases nodes[j]? with
      | none => rfl
      | some n =>
        by_cases e : i = j
        · simp [he, e]
        · simp [he, e]

theorem filter_existing {nodes : List Node} {j : Nat} {n : Node} (h : nodes[j]? = some n)
    (us : List ImportUse) :
    (firstUses us).filter (fun u => findImport? nodes u.path == some j) =
      match n.importPath? with
      | none => []
      | some path =>
        if findImport? nodes path = some j then (us.find? fun u => u.path == path).toList
        else [] := by
  have hu : ∀ path, findImport? nodes path = some j → n.importPath? = some path := by
    intro path hf
    obtain ⟨m, hm, hp⟩ := importPath?_of_findImport? hf
    rw [h] at hm
    cases hm
    exact hp
  cases hp : n.importPath? with
  | none =>
    rw [List.filter_eq_nil_iff]
    intro u _ e
    rw [hu u.path (beq_iff_eq.mp e)] at hp
    cases hp
  | some path =>
    simp only
    split
    · next hf =>
      rw [← filter_firstUses]
      apply List.filter_congr
      intro u _
      by_cases e : u.path = path
      · simp [e, hf]
      · have hne : findImport? nodes u.path ≠ some j := by
          intro hx
          rw [hu u.path hx] at hp
          cases hp
          exact e rfl
        rw [beq_eq_false_iff_ne.mpr hne, beq_eq_false_iff_ne.mpr e]
    · next hf =>
      rw [List.filter_eq_nil_iff]
      intro u _ e
      have hx := beq_iff_eq.mp e
      rw [hu u.path hx] at hp
      cases hp
      exact hf hx

theorem extendExisting_registerAll (stem : Text) (nodes : List Node) (us : List ImportUse) :
    ((Imports.ofNodes stem nodes).registerAll us).extendExisting nodes =
      nodes.mapIdx (withEntries nodes fun path =>
        entriesFor path (allot (Imports.ofNodes stem nodes).allocator us)) := by
  apply List.ext_getElem?
  intro j
  have hb : ((Imports.ofNodes stem nodes).registerAll us).blocks.filter
      (fun b => b.existing == some j) =
        ((firstUses us).filter fun u => findImport? nodes u.path == some j).map
          ((Imports.ofNodes stem nodes).blockFor us) := by
    rw [Imports.blocks_registerAll rfl, List.filter_map]
    congr 1
    apply List.filter_congr
    intro u _
    rw [← lookup_existing stem]
    rfl
  rw [getElem?_extendExisting, hb, List.getElem?_mapIdx]
  cases hn : nodes[j]? with
  | none => rfl
  | some n =>
    rw [filter_existing hn, Option.map_some, Option.map_some, withEntries]
    cases hp : n.importPath? with
    | none => rfl
    | some path =>
      by_cases hf : findImport? nodes path = some j
      · cases hu : us.find? fun u => u.path == path with
        | none =>
          have he : entriesFor path (allot (Imports.ofNodes stem nodes).allocator us) = [] := by
            rw [entriesFor_eq_nil_iff]
            intro hm
            obtain ⟨u, hm, e⟩ := List.mem_map.mp hm
            exact List.find?_eq_none.mp hu u hm (beq_iff_eq.mpr e)
          simp [hf, hu, he]
        | some u =>
          have e : u.path = path := by simpa using List.find?_some hu
          have he : entriesFor path (allot (Imports.ofNodes stem nodes).allocator us) ≠ [] := by
            intro h
            have hm := (entriesFor_eq_nil_iff _).mp h
            exact hm (List.mem_map.mpr ⟨u, List.mem_of_find?_eq_some hu, e⟩)
          simp [hf, hu, he, Imports.declarations_blockFor, e]
      · simp [hf]

theorem mergeExport_eq_mapIdx {nodes changed : List Node} (bs : Bindings)
    (h : findExport? changed = findExport? nodes) :
    mergeExport bs changed = changed.mapIdx (withBindings nodes bs) := by
  apply List.ext_getElem?
  intro j
  rw [mergeExport, h, List.getElem?_mapIdx]
  cases he : findExport? nodes with
  | none => cases changed[j]? <;> simp [withBindings, he]
  | some i =>
    rw [List.getElem?_modify]
    cases changed[j]? with
    | none => rfl
    | some n =>
      by_cases e : i = j
      · simp [withBindings, he, e]
      · simp [withBindings, he, e]

/-! ### Nothing but entries is added -/

section
variable (name : Text)

theorem atRulePaths_cons_congr {m n : Node} {ms ns : List Node}
    (h : m.atRulePaths name = n.atRulePaths name) (hs : atRulePaths name ms = atRulePaths name ns) :
    atRulePaths name (m :: ms) = atRulePaths name (n :: ns) := by
  rw [atRulePaths, atRulePaths, h, hs]

theorem atRulePaths_mapIdx {f : Nat → Node → Node}
    (h : ∀ i n, (f i n).atRulePaths name = n.atRulePaths name) (nodes : List Node) :
    atRulePaths name (nodes.mapIdx f) = atRulePaths name nodes := by
  induction nodes generalizing f with
  | nil => rfl
  | cons n rest ih =>
    rw [List.mapIdx_cons]
    exact atRulePaths_cons_congr name (h 0 n) (ih fun i n => h (i + 1) n)

theorem atRulePaths_append_of_nil (ms : List Node) {ns : List Node}
    (h : atRulePaths name ns = []) : atRulePaths name (ms ++ ns) = atRulePaths name ms := by
  induction ms with
  | nil => exact h
  | cons m ms ih => exact atRulePaths_cons_congr name rfl ih

theorem atRulePaths_newEntry (indent : Option Text) (property value : Text) :
    (newEntry indent property value).atRulePaths name = [] := rfl

theorem atRulePaths_newEntries (indent : Option Text) (entries : List (Text × Text)) :
    atRulePaths name (entries.map fun entry => newEntry indent entry.1 entry.2) = [] := by
  induction entries with
  | nil => rfl
  | cons entry entries ih => simp [atRulePaths, atRulePaths_newEntry, ih]

theorem atRulePaths_terminated (n : Node) :
    n.terminated.atRulePaths name = n.atRulePaths name := by
  rcases n with ⟨content, layout⟩ | ⟨head, children, layout⟩
  · cases content <;> rfl
  · rfl

theorem atRulePaths_terminateAll (nodes : List Node) :
    atRulePaths name (terminateAll nodes) = atRulePaths name nodes := by
  induction nodes using terminateAll.induct with
  | case1 => rfl
  | case2 n => rfl
  | case3 m n rest ih =>
    rw [terminateAll]
    exact atRulePaths_cons_congr name (atRulePaths_terminated name m) ih

theorem atRulePaths_addEntries (entries : List (Text × Text)) (n : Node) :
    (n.addEntries entries).atRulePaths name = n.atRulePaths name := by
  rcases n with ⟨content, layout⟩ | ⟨_ | selector, children, layout⟩
  · rfl
  · rfl
  · simp only [Node.addEntries, extendedRule, Node.atRulePaths, atRulePaths_terminateAll,
      atRulePaths_append_of_nil name children (atRulePaths_newEntries name _ entries)]
    rfl

theorem atRulePaths_setDeclared? {property value : Text} {nodes changed : List Node}
    (h : setDeclared? property value nodes = some changed) :
    atRulePaths name changed = atRulePaths name nodes := by
  induction nodes using setDeclared?.induct property generalizing changed with
  | case1 => cases h
  | case2 v layout rest =>
    rw [setDeclared?, if_pos rfl] at h
    cases h
    rfl
  | case3 p v layout rest hp ih =>
    rw [setDeclared?, if_neg hp] at h
    obtain ⟨tail, ht, rfl⟩ := Option.map_eq_some_iff.mp h
    exact atRulePaths_cons_congr name rfl (ih ht)
  | case4 n rest hn ih =>
    rw [setDeclared?.eq_3 _ _ _ _ hn] at h
    obtain ⟨tail, ht, rfl⟩ := Option.map_eq_some_iff.mp h
    exact atRulePaths_cons_congr name rfl (ih ht)

theorem atRulePaths_mergeBinding (indent : Option Text) (state : List Node × Bool) (b : Binding) :
    atRulePaths name (mergeBinding indent state b).1 = atRulePaths name state.1 := by
  rw [mergeBinding]
  split
  · next h => exact atRulePaths_setDeclared? name h
  · exact atRulePaths_append_of_nil name state.1 rfl

theorem atRulePaths_mergeBindings (bs : Bindings) (n : Node) :
    (n.mergeBindings bs).atRulePaths name = n.atRulePaths name := by
  rcases n with ⟨content, layout⟩ | ⟨_ | selector, children, layout⟩
  · rfl
  · rfl
  · have h : ∀ (entries : List Binding) (state : List Node × Bool),
        atRulePaths name (entries.foldl (mergeBinding (lastIndent? children)) state).1 =
          atRulePaths name state.1 := by
      intro entries
      induction entries with
      | nil => intro state; rfl
      | cons b entries ih =>
        intro state
        rw [List.foldl_cons, ih, atRulePaths_mergeBinding]
    have hc := h bs.entries (children, false)
    rw [Node.mergeBindings]
    split
    · simp only [extendedRule, Node.atRulePaths, atRulePaths_terminateAll, hc]
      rfl
    · simp only [Node.atRulePaths, hc]
      rfl

theorem atRulePaths_withEntries (nodes : List Node) (entries : Text → List ImportEntry) (i : Nat)
    (n : Node) : (withEntries nodes entries i n).atRulePaths name = n.atRulePaths name := by
  rw [withEntries]
  split
  · rfl
  · split
    · exact atRulePaths_addEntries name _ n
    · rfl

theorem atRulePaths_withBindings (nodes : List Node) (bs : Bindings) (i : Nat) (n : Node) :
    (withBindings nodes bs i n).atRulePaths name = n.atRulePaths name := by
  rw [withBindings]
  split
  · exact atRulePaths_mergeBindings name bs n
  · rfl

end

theorem selector?_addEntries (entries : List (Text × Text)) (n : Node) :
    (n.addEntries entries).selector? = n.selector? := by
  rcases n with ⟨content, layout⟩ | ⟨_ | selector, children, layout⟩ <;> rfl

theorem selector?_withEntries (nodes : List Node) (entries : Text → List ImportEntry) (i : Nat)
    (n : Node) : (withEntries nodes entries i n).selector? = n.selector? := by
  rw [withEntries]
  split
  · rfl
  · split
    · exact selector?_addEntries _ n
    · rfl

theorem findExport?_withEntries (nodes : List Node) (entries : Text → List ImportEntry) :
    findExport? (nodes.mapIdx (withEntries nodes entries)) = findExport? nodes := by
  have h : ∀ ns : List Node,
      findExport? ns = (ns.map Node.selector?).findIdx? (Option.any isExportSelector) := by
    intro ns
    rw [List.findIdx?_map]
    rfl
  have hs : (nodes.mapIdx (withEntries nodes entries)).map Node.selector? =
      nodes.map Node.selector? := by
    apply List.ext_getElem?
    intro j
    cases hj : nodes[j]? with
    | none => simp [hj]
    | some n => simp [hj, selector?_withEntries]
  rw [h, h nodes, hs]

end StyleValues
