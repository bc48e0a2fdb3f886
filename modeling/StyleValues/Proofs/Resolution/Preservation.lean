import Mathlib
import StyleValues.Proofs.Definition.ImportTokens
import StyleValues.Proofs.Resolution.Rewriting
import StyleValues.Proofs.Sheet.Embedding

/-!
# Nothing but statements is lost

Whatever is not a statement and not inside one is still there after a run: at
the same place in the document order, in the block that its own block became,
and of the same kind. Its texts are the old ones or what the replacement makes
of them. Only an entry of the export block may have another value, the
published one of its name.
-/

set_option autoImplicit false

namespace StyleValues

/-- The leaf itself, or an entry that has taken the value of its name. -/
inductive Leaf.Exported (bs : Bindings) : Leaf → Leaf → Prop
  | same (c : Leaf) : Leaf.Exported bs c c
  | entry {b : Binding} (value : Text) : b ∈ bs.entries →
    Leaf.Exported bs (.declaration b.name value) (.declaration b.name b.value)

inductive Leaf.Counterpart (r : Replacement) : Leaf → Leaf → Prop
  | exported {c d : Leaf} : c.Exported r.bindings d → Leaf.Counterpart r c d
  | replaced (c : Leaf) : Leaf.Counterpart r c (r.leaf c)

inductive Head.Counterpart (r : Replacement) : Head → Head → Prop
  | same (h : Head) : Head.Counterpart r h h
  | replaced (h : Head) : Head.Counterpart r h (r.head h)

abbrev Node.Counterpart (r : Replacement) : Node → Node → Prop :=
  Node.Matches (Leaf.Counterpart r) (Head.Counterpart r)

/-- Every node has its counterpart, in its place and in the block of its own block. -/
abbrev Keeps (r : Replacement) : List Node → List Node → Prop :=
  Embeds (Leaf.Counterpart r) (Head.Counterpart r)

theorem Leaf.Exported.trans {bs : Bindings} {c d e : Leaf} (h : c.Exported bs d)
    (h' : d.Exported bs e) : c.Exported bs e := by
  cases h with
  | same => exact h'
  | @entry b value hb =>
    -- `cases` cannot unify the two declarations by their names, so the middle one is abstracted.
    generalize hn : Leaf.declaration b.name b.value = d at h'
    cases h' with
    | same => rw [← hn]; exact .entry value hb
    | @entry b' value' hb' =>
      obtain ⟨hn, _⟩ := Leaf.declaration.inj hn
      rw [hn]
      exact .entry value hb'

theorem Leaf.Exported.isAtRule {bs : Bindings} {name : Text} (c d : Leaf) (l k : Layout)
    (h : c.Exported bs d) : (Node.leaf c l).isAtRule name = (Node.leaf d k).isAtRule name := by
  cases h with
  | same => cases c <;> rfl
  | entry => rfl

/-! ### Extending -/

section
variable {bs : Bindings}

abbrev Extends (bs : Bindings) : List Node → List Node → Prop := Embeds (Leaf.Exported bs) Eq

theorem Extends.refl (bs : Bindings) (ns : List Node) : Extends bs ns ns :=
  Embeds.refl (fun c => .same c) (fun _ => rfl) ns

theorem Extends.trans {ms ns ks : List Node} (h : Extends bs ms ns) (h' : Extends bs ns ks) :
    Extends bs ms ks :=
  Embeds.trans (fun _ _ _ hc hd => hc.trans hd) (fun _ _ _ hg hh => hg.trans hh) h h'

theorem extends_append (ms ns : List Node) : Extends bs ms (ms ++ ns) := by
  have h := Embeds.append (Extends.refl bs ms) (Embeds.of_nil ns)
  rwa [List.append_nil] at h

theorem map_withLayout_terminateAll (ns : List Node) :
    (terminateAll ns).map (Node.withLayout {}) = ns.map (Node.withLayout {}) := by
  induction ns using terminateAll.induct with
  | case1 => rfl
  | case2 n => rfl
  | case3 m n rest ih =>
    have hm : m.terminated.withLayout {} = m.withLayout {} := by
      rcases m with ⟨content, layout⟩ | ⟨head, children, layout⟩
      · cases content <;> rfl
      · rfl
    rw [terminateAll, List.map_cons, List.map_cons, hm, ih]

theorem extends_terminateAll {ms ns : List Node} (h : Extends bs ms ns) :
    Extends bs ms (terminateAll ns) :=
  h.congr_layout (map_withLayout_terminateAll ns).symm

theorem extends_setDeclared? {b : Binding} (hb : b ∈ bs.entries) {ns changed : List Node}
    (h : setDeclared? b.name b.value ns = some changed) : Extends bs ns changed := by
  induction ns using setDeclared?.induct b.name generalizing changed with
  | case1 => cases h
  | case2 v layout rest =>
    rw [setDeclared?, if_pos rfl] at h
    cases h
    exact .leaf (.entry v hb) (Extends.refl bs rest)
  | case3 p v layout rest hp ih =>
    rw [setDeclared?, if_neg hp] at h
    obtain ⟨tail, ht, rfl⟩ := Option.map_eq_some_iff.mp h
    exact .leaf (.same _) (ih ht)
  | case4 n rest hn ih =>
    rw [setDeclared?.eq_3 _ _ _ _ hn] at h
    obtain ⟨tail, ht, rfl⟩ := Option.map_eq_some_iff.mp h
    exact Embeds.append (Extends.refl bs [n]) (ih ht)

theorem extends_mergeBinding {b : Binding} (hb : b ∈ bs.entries) (indent : Option Text)
    (state : List Node × Bool) : Extends bs state.1 (mergeBinding indent state b).1 := by
  rw [mergeBinding]
  split
  · next h => exact extends_setDeclared? hb h
  · exact extends_append state.1 _

theorem extends_mergeAll {entries : List Binding} (h : ∀ b ∈ entries, b ∈ bs.entries)
    (indent : Option Text) (state : List Node × Bool) :
    Extends bs state.1 (entries.foldl (mergeBinding indent) state).1 := by
  induction entries generalizing state with
  | nil => exact Extends.refl bs state.1
  | cons b entries ih =>
    have hb := extends_mergeBinding (h b (by simp)) indent state
    exact hb.trans (ih (fun b hb => h b (by simp [hb])) _)

end

theorem extends_addEntries (bs : Bindings) (entries : List (Text × Text)) (n : Node) :
    Extends bs [n] [n.addEntries entries] := by
  rcases n with ⟨content, layout⟩ | ⟨_ | selector, children, layout⟩
  · exact Extends.refl bs _
  · exact Extends.refl bs _
  · exact .block rfl (extends_terminateAll (extends_append children _)) .nil

theorem extends_mergeBindings (bs : Bindings) (n : Node) :
    Extends bs [n] [n.mergeBindings bs] := by
  rcases n with ⟨content, layout⟩ | ⟨_ | selector, children, layout⟩
  · exact Extends.refl bs _
  · exact Extends.refl bs _
  · have h := extends_mergeAll (fun b (hb : b ∈ bs.entries) => hb) (lastIndent? children)
      (children, false)
    rw [Node.mergeBindings]
    split
    · exact .block rfl (extends_terminateAll h) .nil
    · exact .block rfl h .nil

theorem extends_extendedAt (stem : Text) (nodes : List Node) (bs : Bindings) (i : Nat) (n : Node) :
    Extends bs [n] [extendedAt stem nodes bs i n] := by
  have he : Extends bs [n] [withEntries nodes (entriesIn stem nodes) i n] := by
    rw [withEntries]
    split
    · exact Extends.refl bs _
    · split
      · exact extends_addEntries bs _ n
      · exact Extends.refl bs _
  refine he.trans ?_
  rw [extendedAt, withBindings]
  split
  · exact extends_mergeBindings bs _
  · exact Extends.refl bs _

theorem Extends.pruned {bs : Bindings} {m n : Node} (name : Text) (h : Extends bs [m] [n]) :
    Extends bs [m.pruned name] [n.pruned name] := by
  cases h with
  | added _ h => cases h
  | leaf hc _ => exact .leaf hc .nil
  | block hh hi _ =>
    have ha : ∀ (g h : Head) (ms ns : List Node) (l k : Layout), g = h →
        (Node.block g ms l).isAtRule name = (Node.block h ns k).isAtRule name := by
      rintro g _ ms ns l k rfl
      cases g <;> rfl
    exact .block hh (hi.prune Leaf.Exported.isAtRule ha) .nil

/-! ### Replacing -/

namespace Replacement

variable (r : Replacement)

theorem nodes_eq_map (ns : List Node) : r.nodes ns = ns.map r.node := by
  induction ns with
  | nil => rfl
  | cons n ns ih => rw [nodes, ih, List.map_cons]

theorem apply_eq_map (ns : List Node) :
    r.apply ns = ns.map fun n => if r.bindings.isEmpty then n else r.node n := by
  rw [apply]
  split
  · rw [List.map_id']
  · exact r.nodes_eq_map ns

theorem withLayout_node (layout : Layout) (n : Node) :
    (r.node n).withLayout layout = r.node (n.withLayout layout) := by
  cases n with
  | leaf content l => rfl
  | block head children l =>
    rw [node, Node.withLayout, node]
    split <;> rfl

theorem map_withLayout_apply (ns : List Node) :
    (r.apply ns).map (Node.withLayout {}) = r.apply (ns.map (Node.withLayout {})) := by
  rw [apply_eq_map, apply_eq_map, List.map_map, List.map_map]
  apply List.map_congr_left
  intro n _
  simp only [Function.comp_apply]
  split
  · rfl
  · exact r.withLayout_node {} n

theorem keeps_refl (ns : List Node) : Keeps r ns ns :=
  Embeds.refl (fun c => .exported (.same c)) .same ns

theorem keeps_nodes (ns : List Node) :
    Keeps r ns (r.nodes ns) := by
  induction ns using forestInduction with
  | nil => exact .nil
  | leaf content layout rest ih => exact .leaf (.replaced content) ih
  | block head children layout rest ihc ihr =>
    rw [nodes, node]
    split
    · exact .block (.same head) (r.keeps_refl children) ihr
    · exact .block (.replaced head) ihc ihr

theorem keeps_apply (ns : List Node) :
    Keeps r ns (r.apply ns) := by
  rw [apply]
  split
  · exact r.keeps_refl ns
  · exact r.keeps_nodes ns

theorem node_of_exchange {n : Node} (h : n.selector?.any isExchangeSelector) : r.node n = n := by
  rcases n with ⟨content, layout⟩ | ⟨_ | selector, children, layout⟩
  · cases h
  · cases h
  · exact if_pos h

theorem apply_exchange {n : Node} (h : n.selector?.any isExchangeSelector) : r.apply [n] = [n] := by
  rw [apply_eq_map, List.map_singleton, r.node_of_exchange h, ite_self]

end Replacement

/-! ### Both together -/

theorem selector?_extendedAt (stem : Text) (nodes : List Node) (bs : Bindings) (i : Nat) (n : Node) :
    (extendedAt stem nodes bs i n).selector? = n.selector? := by
  have hm : ∀ m : Node, (m.mergeBindings bs).selector? = m.selector? := by
    intro m
    rcases m with ⟨content, layout⟩ | ⟨_ | selector, children, layout⟩
    · rfl
    · rfl
    · rw [Node.mergeBindings]
      split <;> rfl
  rw [extendedAt, withBindings]
  split
  · rw [hm, selector?_withEntries]
  · exact selector?_withEntries nodes _ i n

section
variable {n : Node}

theorem isExportBlock_of_findExport? {nodes : List Node} {i : Nat} (hn : nodes[i]? = some n)
    (h : findExport? nodes = some i) : isExportBlock n := by
  obtain ⟨hi, hp, -⟩ := List.findIdx?_eq_some_iff_getElem.mp h
  obtain ⟨hi', e⟩ := List.getElem?_eq_some_iff.mp hn
  rwa [e] at hp

theorem exchange_of_isExportBlock (h : isExportBlock n) : n.selector?.any isExchangeSelector := by
  obtain ⟨selector, hs, hx⟩ := (Option.any_eq_true _ _).mp h
  rw [hs, Option.any_some, isExchangeSelector, hx, Bool.true_or]

theorem exchange_of_importPath? {path : Text} (h : n.importPath? = some path) :
    n.selector?.any isExchangeSelector := by
  obtain ⟨selector, hs, hp⟩ := Option.bind_eq_some_iff.mp h
  rw [hs, Option.any_some, isExchangeSelector, hp, Option.isSome_some, Bool.or_true]

end

/-- Only blocks that are exchanged with other sheets are extended. -/
theorem extendedAt_of_not_exchange (stem : Text) {nodes : List Node} (bs : Bindings) {i : Nat}
    {n : Node} (hn : nodes[i]? = some n) (h : ¬ n.selector?.any isExchangeSelector) :
    extendedAt stem nodes bs i n = n := by
  have hp : n.importPath? = none :=
    Option.eq_none_iff_forall_ne_some.mpr fun _ hp => h (exchange_of_importPath? hp)
  have hx : findExport? nodes ≠ some i := fun hf =>
    h (exchange_of_isExportBlock (isExportBlock_of_findExport? hn hf))
  rw [extendedAt, withBindings, if_neg hx, withEntries, hp]

theorem keeps_survivor (r : Replacement) (stem : Text) {nodes : List Node} {i : Nat} {n : Node}
    (hn : nodes[i]? = some n) :
    Keeps r [n.pruned valueKeyword]
      (r.apply [(extendedAt stem nodes r.bindings i n).pruned valueKeyword]) := by
  have hs : ∀ m : Node, (m.pruned valueKeyword).selector? = m.selector? := by
    intro m
    rcases m with ⟨content, layout⟩ | ⟨_ | selector, children, layout⟩ <;> rfl
  -- A block is either extended or has its texts replaced, never both.
  by_cases h : n.selector?.any isExchangeSelector
  · rw [r.apply_exchange (by rw [hs, selector?_extendedAt]; exact h)]
    have he := (extends_extendedAt stem nodes r.bindings i n).pruned valueKeyword
    exact he.mono (fun _ _ => .exported) (by rintro g _ rfl; exact .same g)
  · rw [extendedAt_of_not_exchange stem r.bindings hn h]
    exact r.keeps_apply _

theorem Replacement.apply_append (r : Replacement) (ms ns : List Node) :
    r.apply (ms ++ ns) = r.apply ms ++ r.apply ns := by
  rw [apply_eq_map, apply_eq_map, apply_eq_map, List.map_append]

theorem keeps_rewritten (r : Replacement) (stem : Text) (nodes : List Node) :
    Keeps r (prune valueKeyword nodes)
      (r.apply (rewritten stem nodes r.bindings)) := by
  have h : ∀ l : List (Node × Nat), (∀ e ∈ l, nodes[e.2]? = some e.1) →
      Keeps r (prune valueKeyword (l.map Prod.fst))
        (r.apply (l.flatMap fun e => generatedAt stem nodes r.bindings e.2 ++
          survivorAt stem nodes r.bindings e.2 e.1)) := by
    intro l hl
    induction l with
    | nil => exact .of_nil _
    | cons e l ih =>
      have he := hl e (by simp)
      have ih := ih fun e' he' => hl e' (by simp [he'])
      have hg : Keeps r []
          (r.apply (generatedAt stem nodes r.bindings e.2)) := .of_nil _
      rw [List.flatMap_cons, Replacement.apply_append, Replacement.apply_append, List.map_cons,
        prune, survivorAt]
      split
      · exact (hg.append (.of_nil _)).append ih
      · exact (hg.append (keeps_survivor r stem he)).append ih
  have hz := h nodes.zipIdx fun e he => List.mem_zipIdx_iff_getElem?.mp he
  rwa [List.zipIdx_map_fst] at hz

def replacementOf (config : Config) (input : List Message) (sheet : Stylesheet) : Replacement where
  bindings := published config input sheet
  redirects := redirectsOf (collect config sheet).bindings input
  config := config

/-- Statements are lost with all that is inside them, and nothing else is. Every other node
keeps its kind, its place among the others and the block it stands in. -/
theorem resolve_keeps (config : Config) (input : List Message) (sheet : Stylesheet) :
    Keeps (replacementOf config input sheet) (prune valueKeyword sheet.nodes)
        (resolve config input sheet).1.nodes ∧
      List.SublistForall₂ (Node.Counterpart (replacementOf config input sheet))
        (outside valueKeyword sheet.nodes) (preorder (resolve config input sheet).1.nodes) ∧
      ((∀ n ∈ preorder sheet.nodes, n.isAtRule valueKeyword → n.children?.getD [] = []) →
        List.SublistForall₂ (Node.Counterpart (replacementOf config input sheet))
          ((preorder sheet.nodes).filter fun n => !n.isAtRule valueKeyword)
          (preorder (resolve config input sheet).1.nodes)) := by
  have hr : (resolve config input sheet).1.nodes = (replacementOf config input sheet).apply
      (rewrite (statementsIn sheet.nodes) (published config input sheet)
        (collect config sheet).imports sheet.nodes) := rfl
  have hl : ∀ ns : List Node, (ns.map (Node.withBefore [])).map (Node.withLayout {}) =
      ns.map (Node.withLayout {}) := by
    intro ns
    rw [List.map_map]
    apply List.map_congr_left
    intro n _
    cases n <;> rfl
  -- The rewrite is known up to the spacing at the top level, which no counterpart depends on.
  have hw := congrArg (List.map (Node.withLayout {}))
    (rewrite_eq_rewritten config.stem sheet.nodes (published config input sheet))
  rw [hl, hl] at hw
  have he : Keeps (replacementOf config input sheet) (prune valueKeyword sheet.nodes)
      (resolve config input sheet).1.nodes := by
    apply (keeps_rewritten (replacementOf config input sheet) config.stem sheet.nodes).congr_layout
    rw [hr, imports_collect, Replacement.map_withLayout_apply, Replacement.map_withLayout_apply, hw]
    rfl
  refine ⟨he, he.outside, ?_⟩
  intro h
  rw [← outside_eq_filter h]
  exact he.outside

theorem Leaf.Counterpart.property_eq {r : Replacement} {property value property' value' : Text}
    (h : Leaf.Counterpart r (.declaration property value) (.declaration property' value')) :
    property = property' := by
  generalize hc : Leaf.declaration property' value' = c at h
  cases h with
  | exported h =>
    generalize hd : Leaf.declaration property value = d at h
    cases h with
    | same => exact (Leaf.declaration.inj (hd.trans hc.symm)).1
    | entry value hb =>
      rw [(Leaf.declaration.inj hd).1, (Leaf.declaration.inj hc).1]
  | replaced => exact (Leaf.declaration.inj hc).1.symm

/-- The sheet `@value a: red .b{c:d}`, in which a semicolon is missing behind `red`. -/
def coveringSheet : Stylesheet where
  nodes := [.block (.atRule valueKeyword "a: red .b".toList)
    [.leaf (.declaration ['c'] ['d']) { between := [':'] }] { afterName := [' '] }]

theorem resolve_coveringSheet : resolve {} [] coveringSheet =
    ({ nodes := [.block (.rule exportSelector) [.declaration ['a'] "red .b".toList]
        { between := [' '], after := ['\n'] }] },
      { messages := [.boundName "icss-values".toList ['a'] "red .b".toList] }) := by
  have hd : Definition.read "a: red .b".toList = .ok (.value ['a'] "red .b".toList) :=
    (read_eq_readValue (by cbv) (by cbv)).trans (by cbv)
  have hs : statementsIn coveringSheet.nodes =
      [⟨[0], "a: red .b".toList, "@value a: red .b{c:d}".toList⟩] := rfl
  rw [resolve, published, collect, hs, Progress.processAll, List.foldl_cons, List.foldl_nil,
    Progress.process]
  simp only [hd]
  rfl

/-- Of a statement with a block of its own not even the declarations inside it are kept. It may be a
definition whose semicolon is missing in front of a rule, and then nothing is said. -/
theorem declaration_inside_statement_lost :
    (∃ sheet, parse "@value{c:d}".toList = .ok sheet ∧
      ¬ List.SublistForall₂ (Node.Counterpart (replacementOf {} [] sheet))
        ((preorder sheet.nodes).filter fun n => !n.isAtRule valueKeyword)
        (preorder (resolve {} [] sheet).1.nodes)) ∧
    ∃ sheet, parse "@value a: red .b{c:d}".toList = .ok sheet ∧
      (resolve {} [] sheet).2.warnings = [] ∧
      ¬ List.SublistForall₂ (Node.Counterpart (replacementOf {} [] sheet))
        ((preorder sheet.nodes).filter fun n => !n.isAtRule valueKeyword)
        (preorder (resolve {} [] sheet).1.nodes) := by
  constructor
  · refine ⟨{ nodes := [.block (.atRule valueKeyword [])
      [.leaf (.declaration ['c'] ['d']) { between := [':'] }] {}] }, by cbv, ?_⟩
    have hr : (resolve {} [] { nodes := [.block (.atRule valueKeyword [])
        [.leaf (.declaration ['c'] ['d']) { between := [':'] }] {}] }).1.nodes = [] := by cbv
    rw [hr]
    intro h
    have hl : List.SublistForall₂ (Node.Counterpart (replacementOf {} [] _))
        [.leaf (.declaration ['c'] ['d']) { between := [':'] }] [] := h
    cases hl
  · refine ⟨coveringSheet, by cbv, by rw [resolve_coveringSheet], ?_⟩
    rw [resolve_coveringSheet]
    intro h
    have hl : List.SublistForall₂ (Node.Counterpart (replacementOf {} [] coveringSheet))
        [.leaf (.declaration ['c'] ['d']) { between := [':'] }]
        [.block (.rule exportSelector) [.declaration ['a'] "red .b".toList]
          { between := [' '], after := ['\n'] }, .declaration ['a'] "red .b".toList] := h
    -- Neither the block nor its entry, which has another name, is a counterpart.
    cases hl with
    | cons hm _ => cases hm
    | cons_right hl =>
      cases hl with
      | cons hm _ =>
        cases hm with
        | leaf hm => cases hm.property_eq
      | cons_right hl => cases hl

end StyleValues
