import StyleValues.Proofs.Resolution.ExportBlock

/-!
# The texts of a resolved sheet

Values, selectors and parameters are the texts that a run may replace. Those
of a sheet that stand neither in a statement nor in an exchange block are all
found in the resolved sheet, in their order, and each is what the replacement
makes of it alone. A resolved sheet has no other texts outside its exchange
blocks.
-/

set_option autoImplicit false

namespace StyleValues

inductive Spot where
  | value (property : Text)
  | selector
  | params (name : Text)
deriving DecidableEq, Repr

def Spot.isTarget (c : Config) : Spot → Bool
  | .value _ => c.targets.declarations
  | .selector => c.targets.selectors
  | .params name => c.targetsAtRule name

def Leaf.texts : Leaf → List (Spot × Text)
  | .atRule name params => [(.params name, params)]
  | .declaration property value => [(.value property, value)]
  | .comment _ => []

def Head.texts : Head → List (Spot × Text)
  | .atRule name params => [(.params name, params)]
  | .rule selector => [(.selector, selector)]

def Node.texts : Node → List (Spot × Text)
  | .leaf content _ => content.texts
  | .block head _ _ => head.texts

def textsIn (nodes : List Node) : List (Spot × Text) := (preorder nodes).flatMap Node.texts

mutual

def Node.openTexts : Node → List (Spot × Text)
  | .leaf content _ => content.texts
  | .block head children _ =>
    if Replacement.isExchangeHead head then [] else head.texts ++ openTexts children

def openTexts : List Node → List (Spot × Text)
  | [] => []
  | n :: rest => n.openTexts ++ openTexts rest

end

def Replacement.spot (r : Replacement) (e : Spot × Text) : Spot × Text :=
  (e.1, r.text (e.1.isTarget r.config) e.2)

theorem textsIn_leaf (content : Leaf) (layout : Layout) (rest : List Node) :
    textsIn (.leaf content layout :: rest) = content.texts ++ textsIn rest := rfl

theorem textsIn_block (head : Head) (children rest : List Node) (layout : Layout) :
    textsIn (.block head children layout :: rest) =
      (head.texts ++ textsIn children) ++ textsIn rest := by
  rw [textsIn, preorder, Node.preorder, List.flatMap_append, List.flatMap_cons]
  rfl

theorem openTexts_append (ms ns : List Node) : openTexts (ms ++ ns) = openTexts ms ++ openTexts ns := by
  induction ms with
  | nil => rfl
  | cons m ms ih => rw [List.cons_append, openTexts, openTexts, ih, List.append_assoc]

theorem openTexts_flatMap {α : Type} (f : α → List Node) (as : List α) :
    openTexts (as.flatMap f) = as.flatMap fun a => openTexts (f a) := by
  induction as with
  | nil => rfl
  | cons a as ih => rw [List.flatMap_cons, openTexts_append, ih, List.flatMap_cons]

theorem openTexts_map_withBefore (before : Text) (nodes : List Node) :
    openTexts (nodes.map (Node.withBefore before)) = openTexts nodes := by
  induction nodes with
  | nil => rfl
  | cons n rest ih =>
    have hn : (n.withBefore before).openTexts = n.openTexts := by cases n <;> rfl
    rw [List.map_cons, openTexts, openTexts, hn, ih]

theorem openTexts_of_exchange {n : Node} (h : n.selector?.any isExchangeSelector) :
    n.openTexts = [] := by
  rcases n with ⟨content, layout⟩ | ⟨_ | selector, children, layout⟩
  · cases h
  · cases h
  · exact if_pos h

theorem openTexts_of_exchanges {nodes : List Node}
    (h : ∀ n ∈ nodes, n.selector?.any isExchangeSelector) : openTexts nodes = [] := by
  induction nodes with
  | nil => rfl
  | cons n rest ih =>
    obtain ⟨hn, hr⟩ := List.forall_mem_cons.mp h
    rw [openTexts, openTexts_of_exchange hn, ih hr]
    rfl

/-! ### What the rewrite leaves -/

section
variable (stem : Text) (nodes : List Node) (bs : Bindings)

theorem exchange_of_mem_generatedRules {n : Node} (h : n ∈ generatedRules stem nodes bs) :
    n.selector?.any isExchangeSelector := by
  rw [generatedRules, List.mem_append] at h
  rcases h with h | h
  · obtain ⟨u, -, rfl⟩ := List.mem_map.mp h
    have hs : (importRule u.path (entriesIn stem nodes u.path)).selector? =
        some (importSelector u.path) := selector?_addEntries _ _
    rw [hs, Option.any_some, isExchangeSelector, importPath?_importSelector, Option.isSome_some,
      Bool.or_true]
  · split at h
    · obtain rfl := List.mem_singleton.mp h
      rfl
    · cases h

theorem openTexts_survivorAt {i : Nat} {n : Node} (hn : nodes[i]? = some n) :
    openTexts (survivorAt stem nodes bs i n) =
      openTexts (if n.isAtRule valueKeyword then [] else [n.pruned valueKeyword]) := by
  rw [survivorAt]
  by_cases h : n.selector?.any isExchangeSelector
  · have hx : ∀ m ∈ (if n.isAtRule valueKeyword then [] else [n.pruned valueKeyword] : List Node),
        m.selector?.any isExchangeSelector := by
      intro m hm
      split at hm
      · cases hm
      · rw [List.mem_singleton.mp hm, selector?_pruned]
        exact h
    have hy : ∀ m ∈ (if n.isAtRule valueKeyword then []
        else [(extendedAt stem nodes bs i n).pruned valueKeyword] : List Node),
        m.selector?.any isExchangeSelector := by
      intro m hm
      split at hm
      · cases hm
      · rw [List.mem_singleton.mp hm, selector?_pruned, selector?_extendedAt]
        exact h
    rw [openTexts_of_exchanges hx, openTexts_of_exchanges hy]
  · rw [extendedAt_of_not_exchange stem bs hn h]

theorem openTexts_prune :
    openTexts (prune valueKeyword nodes) = nodes.flatMap fun n =>
      openTexts (if n.isAtRule valueKeyword then [] else [n.pruned valueKeyword]) := by
  induction nodes with
  | nil => rfl
  | cons n rest ih =>
    rw [prune, List.flatMap_cons, ← ih]
    split
    · rfl
    · exact openTexts_append [n.pruned valueKeyword] _

theorem openTexts_rewritten :
    openTexts (rewritten stem nodes bs) = openTexts (prune valueKeyword nodes) := by
  have he : ∀ e ∈ nodes.zipIdx,
      openTexts (generatedAt stem nodes bs e.2 ++ survivorAt stem nodes bs e.2 e.1) =
        openTexts (if e.1.isAtRule valueKeyword then [] else [e.1.pruned valueKeyword]) := by
    intro e he
    have hg : openTexts (generatedAt stem nodes bs e.2) = [] := openTexts_of_exchanges fun n hn =>
      exchange_of_mem_generatedRules stem nodes bs (mem_generatedRules stem nodes bs hn)
    rw [openTexts_append, hg, List.nil_append,
      openTexts_survivorAt stem nodes bs (List.mem_zipIdx_iff_getElem?.mp he)]
  rw [rewritten, openTexts_flatMap, List.flatMap_congr he, openTexts_prune]
  conv => rhs; rw [← List.zipIdx_map_fst 0 nodes, List.flatMap_map]

end

/-- A rewrite adds and takes away no text outside the exchange blocks but those of statements. -/
theorem openTexts_rewriteOf (config : Config) (input : List Message) (sheet : Stylesheet) :
    openTexts (rewriteOf config input sheet) = openTexts (prune valueKeyword sheet.nodes) := by
  rw [← openTexts_map_withBefore [], rewriteOf, imports_collect, rewrite_eq_rewritten,
    openTexts_map_withBefore, openTexts_rewritten]

/-! ### What the replacement makes of it -/

section
variable (r : Replacement)

theorem texts_leaf (content : Leaf) : (r.leaf content).texts = content.texts.map r.spot := by
  cases content <;> rfl

theorem texts_head (head : Head) : (r.head head).texts = head.texts.map r.spot := by
  cases head <;> rfl

theorem openTexts_sublist_textsIn (nodes : List Node) :
    ((openTexts nodes).map r.spot).Sublist (textsIn (r.nodes nodes)) := by
  induction nodes using forestInduction with
  | nil => exact List.Sublist.refl _
  | leaf content layout rest ih =>
    rw [openTexts, Node.openTexts, List.map_append, Replacement.nodes, Replacement.node, textsIn_leaf,
      texts_leaf]
    exact ih.append_left _
  | block head children layout rest ihc ihr =>
    rw [openTexts, Node.openTexts, Replacement.nodes, Replacement.node]
    split
    · rw [textsIn_block]
      exact ihr.trans (List.sublist_append_right _ _)
    · rw [textsIn_block, List.map_append, List.map_append, texts_head]
      exact (ihc.append_left _).append ihr

theorem openTexts_replacement (nodes : List Node) :
    (openTexts (r.nodes nodes)).Sublist ((openTexts nodes).map r.spot) := by
  induction nodes using forestInduction with
  | nil => exact List.Sublist.refl _
  | leaf content layout rest ih =>
    rw [Replacement.nodes, Replacement.node, openTexts, openTexts, Node.openTexts, Node.openTexts,
      List.map_append, texts_leaf]
    exact ih.append_left _
  | block head children layout rest ihc ihr =>
    rw [Replacement.nodes, Replacement.node, openTexts.eq_2 (.block head children layout),
      Node.openTexts, List.map_append]
    split
    · next h =>
      rw [openTexts, Node.openTexts, if_pos h]
      exact ihr.append_left []
    · rw [openTexts, Node.openTexts, List.map_append, ← texts_head]
      -- A selector may have become that of an exchange block by the replacement.
      split
      · exact ihr.trans (List.sublist_append_right _ _)
      · exact (ihc.append_left _).append ihr

end

section
variable (config : Config) (input : List Message) (sheet : Stylesheet)

theorem redirectsOf_of_isEmpty {bs : Bindings} (h : bs.isEmpty) (input : List Message) :
    redirectsOf bs input = [] := by
  have hb : ∀ name, bs.value? name = none := by
    intro name
    rw [Bindings.value?, Bindings.find?, List.isEmpty_iff.mp h]
    rfl
  rw [redirectsOf, List.filterMap_eq_nil_iff]
  intro m _
  cases m with
  | scopedName name value => rw [redirectOf?, hb]; rfl
  | boundName plugin name value => rfl

theorem text_replacementOf_of_isEmpty (h : (published config input sheet).isEmpty) (isTarget : Bool)
    (s : Text) : (replacementOf config input sheet).text isTarget s = s := by
  have hc : (collect config sheet).bindings.isEmpty := by
    rw [published, Bindings.isEmpty, Bindings.mapValues, List.isEmpty_map] at h
    exact h
  have hv : (published config input sheet).value? = fun _ => none := by
    funext name
    rw [Bindings.value?, Bindings.find?, List.isEmpty_iff.mp h]
    rfl
  rw [Replacement.text, replacementOf, redirectsOf_of_isEmpty hc]
  simp only [Bindings.resolve, hv, substitute_none, ite_self]
  rfl

theorem nodes_eq_self {r : Replacement} (h : ∀ isTarget s, r.text isTarget s = s) (nodes : List Node) :
    r.nodes nodes = nodes := by
  induction nodes using forestInduction with
  | nil => rfl
  | leaf content layout rest ih =>
    have hl : r.leaf content = content := by cases content <;> simp [Replacement.leaf, h]
    rw [Replacement.nodes, Replacement.node, hl, ih]
  | block head children layout rest ihc ihr =>
    have hh : r.head head = head := by cases head <;> simp [Replacement.head, h]
    rw [Replacement.nodes, Replacement.node, hh, ihc, ihr, ite_self]

/-- A run replaces the texts of every sheet; where nothing is bound, each by itself. -/
theorem apply_replacementOf (nodes : List Node) :
    (replacementOf config input sheet).apply nodes = (replacementOf config input sheet).nodes nodes := by
  rw [Replacement.apply]
  split
  · next h => rw [nodes_eq_self (text_replacementOf_of_isEmpty config input sheet h)]
  · rfl

/-- The texts of a resolved sheet: the texts that the sheet has outside its statements and exchange
blocks, each as it was replaced, and outside exchange blocks no others. -/
theorem texts_of_resolve :
    ((openTexts (prune valueKeyword sheet.nodes)).map (replacementOf config input sheet).spot).Sublist
        (textsIn (resolve config input sheet).1.nodes) ∧
      (openTexts (resolve config input sheet).1.nodes).Sublist
        ((openTexts (prune valueKeyword sheet.nodes)).map (replacementOf config input sheet).spot) := by
  have hr : (resolve config input sheet).1.nodes =
      (replacementOf config input sheet).apply (rewriteOf config input sheet) := rfl
  rw [hr, apply_replacementOf, ← openTexts_rewriteOf config input]
  exact ⟨openTexts_sublist_textsIn _ _, openTexts_replacement _ _⟩

end

end StyleValues
