import StyleValues.Proofs.Definition.ImportTokens
import StyleValues.Proofs.Resolution.Statements
import StyleValues.Proofs.Sheet.Removal
import StyleValues.Proofs.Sheet.RoundTrip

/-!
# Documents that define nothing

If no statement of a document is a definition, then a run takes the statements
out of the text and leaves every other character of it alone, whatever blocks
the document has and whatever is known from earlier runs. It publishes nothing
and warns once of every statement.
-/

set_option autoImplicit false

namespace StyleValues

def Rejected (params : Text) : Prop := ∃ e, Definition.read params = .error e

/-! ### The text around the statements -/

/-- A part of the text of a sheet: an at-rule that is to go, or something between such at-rules. -/
inductive Piece where
  | kept (text : Text)
  | dropped (n : Node)

namespace Piece

def text : Piece → Text
  | .kept text => text
  | .dropped n => n.print

def keptText : Piece → Text
  | .kept text => text
  | .dropped _ => []

end Piece

mutual

def Node.pieces (name : Text) : Node → List Piece
  | .leaf content layout =>
    if (Node.leaf content layout).isAtRule name then [.dropped (.leaf content layout)]
    else [.kept (content.print layout)]
  | .block head children layout =>
    if (Node.block head children layout).isAtRule name then [.dropped (.block head children layout)]
    else .kept (head.print layout ++ ['{']) :: (pieces name children ++ [.kept (layout.after ++ ['}'])])

def pieces (name : Text) : List Node → List Piece
  | [] => []
  | n :: rest => n.pieces name ++ pieces name rest

end

section
variable (name : Text)

theorem flatMap_text_pieces (nodes : List Node) :
    (pieces name nodes).flatMap Piece.text = printAll nodes := by
  induction nodes using forestInduction with
  | nil => rfl
  | leaf content layout rest ih =>
    rw [pieces, List.flatMap_append, ih, Node.pieces, printAll, Node.print]
    split
    · simp [Piece.text, Node.print]
    · simp [Piece.text]
  | block head children layout rest ihc ihr =>
    rw [pieces, List.flatMap_append, ihr, Node.pieces, printAll]
    split
    · simp [Piece.text]
    · simp [Piece.text, Node.print, ihc]

theorem flatMap_keptText_pieces (nodes : List Node) :
    (pieces name nodes).flatMap Piece.keptText = printAll (prune name nodes) := by
  induction nodes using forestInduction with
  | nil => rfl
  | leaf content layout rest ih =>
    rw [pieces, List.flatMap_append, ih, Node.pieces, prune]
    split
    · simp [Piece.keptText]
    · simp [Piece.keptText, printAll, Node.print, Node.pruned]
  | block head children layout rest ihc ihr =>
    rw [pieces, List.flatMap_append, ihr, Node.pieces, prune]
    split
    · simp [Piece.keptText]
    · simp [Piece.keptText, printAll, Node.print, Node.pruned, ihc]

theorem prune_eq_self {nodes : List Node} (h : ∀ n ∈ preorder nodes, ¬ n.isAtRule name) :
    prune name nodes = nodes := by
  induction nodes using forestInduction with
  | nil => rfl
  | leaf content layout rest ih =>
    have hn := h (.leaf content layout) (by simp [preorder, Node.preorder])
    have hr : ∀ n ∈ preorder rest, ¬ n.isAtRule name := fun n hn => h n (by simp [preorder, hn])
    rw [prune, if_neg hn, Node.pruned, ih hr]
  | block head children layout rest ihc ihr =>
    have hn := h (.block head children layout) (by simp [preorder, Node.preorder])
    have hc : ∀ n ∈ preorder children, ¬ n.isAtRule name :=
      fun n hn => h n (by simp [preorder, Node.preorder, hn])
    have hr : ∀ n ∈ preorder rest, ¬ n.isAtRule name := fun n hn => h n (by simp [preorder, hn])
    rw [prune, if_neg hn, Node.pruned, ihc hc, ihr hr]

end

/-! ### A run that reads no definition -/

def invalidWarning (n : Node) : Warning where
  kind := .invalidDefinition (n.params?.getD [])
  statement := some n.print.trim

theorem process_of_rejected (p : Progress) {s : Statement} (h : Rejected s.params) :
    p.process s = p.warn s [.invalidDefinition s.params] := by
  obtain ⟨e, he⟩ := h
  rw [Progress.process, he]

theorem processAll_of_rejected (p : Progress) {statements : List Statement}
    (h : ∀ s ∈ statements, Rejected s.params) :
    p.processAll statements =
      { p with
        warnings := p.warnings ++ statements.map fun s =>
          { kind := .invalidDefinition s.params, statement := some s.source } } := by
  induction statements generalizing p with
  | nil => simp [Progress.processAll]
  | cons s rest ih =>
    have hs : p.processAll (s :: rest) = (p.process s).processAll rest := rfl
    have hr : ∀ t ∈ rest, Rejected t.params := fun t ht => h t (by simp [ht])
    rw [hs, process_of_rejected p (h s (by simp)), ih _ hr]
    simp [Progress.warn]

theorem rejected_statementsIn {nodes : List Node}
    (h : ∀ n ∈ preorder nodes, n.isAtRule valueKeyword → Rejected (n.params?.getD [])) :
    ∀ s ∈ statementsIn nodes, Rejected s.params := by
  intro s hs
  have hp := map_statementsIn Statement.params (fun n => n.params?.getD []) (fun _ _ => rfl) nodes
  have hm := List.mem_map_of_mem (f := Statement.params) hs
  rw [hp] at hm
  obtain ⟨n, hn, e⟩ := List.mem_map.mp hm
  obtain ⟨hn, ha⟩ := List.mem_filter.mp hn
  rw [← e]
  exact h n hn ha

theorem collect_of_rejected (config : Config) {sheet : Stylesheet}
    (h : ∀ n ∈ preorder sheet.nodes, n.isAtRule valueKeyword → Rejected (n.params?.getD [])) :
    collect config sheet =
      { imports := .ofNodes config.stem sheet.nodes
        warnings := ((preorder sheet.nodes).filter (Node.isAtRule valueKeyword)).map
          invalidWarning } := by
  rw [collect, processAll_of_rejected _ (rejected_statementsIn h),
    map_statementsIn _ invalidWarning (fun _ _ => rfl)]
  rfl

/-! ### A run that binds nothing -/

theorem insertInto_ne_nil (b : Binding) (entries : List Binding) : b.insertInto entries ≠ [] := by
  cases entries with
  | nil => exact List.cons_ne_nil _ _
  | cons a rest =>
    rw [Binding.insertInto]
    split <;> exact List.cons_ne_nil _ _

/-- Names that are bound stay bound, and an import statement binds at least one name. -/
theorem entries_importNames_ne_nil (s : Statement) (path : Text) {names : List ImportedName}
    {p : Progress} (h : p.bindings.entries ≠ [] ∨ names ≠ []) :
    (names.foldl (Progress.importName s path) p).bindings.entries ≠ [] := by
  induction names generalizing p with
  | nil => exact h.resolve_right fun hn => hn rfl
  | cons n names ih => exact ih (Or.inl (insertInto_ne_nil _ _))

theorem rejected_of_process {p : Progress} {s : Statement}
    (h : (p.process s).bindings.entries = []) :
    p.bindings.entries = [] ∧ Rejected s.params := by
  rw [Progress.process] at h
  cases hr : Definition.read s.params with
  | error e => exact ⟨by simpa [hr, Progress.warn] using h, e, hr⟩
  | ok definition =>
    rw [hr] at h
    cases definition with
    | value name value => exact absurd h (insertInto_ne_nil _ _)
    | imports path names =>
      exact absurd h (entries_importNames_ne_nil s path (Or.inr (names_ne_nil_of_read hr)))

/-- A run that has bound nothing in the end has met no definition. -/
theorem rejected_of_processAll {p : Progress} {statements : List Statement}
    (h : (p.processAll statements).bindings.entries = []) :
    p.bindings.entries = [] ∧ ∀ s ∈ statements, Rejected s.params := by
  induction statements generalizing p with
  | nil => exact ⟨h, fun s hs => absurd hs List.not_mem_nil⟩
  | cons s rest ih =>
    obtain ⟨hp, hr⟩ := ih (p := p.process s) h
    obtain ⟨hp, hs⟩ := rejected_of_process hp
    exact ⟨hp, List.forall_mem_cons.mpr ⟨hs, hr⟩⟩

theorem rejected_of_collect {config : Config} {sheet : Stylesheet}
    (h : (collect config sheet).bindings.entries = []) :
    ∀ n ∈ preorder sheet.nodes, n.isAtRule valueKeyword → Rejected (n.params?.getD []) := by
  intro n hn ha
  have hm := List.mem_map_of_mem (f := fun n : Node => n.params?.getD [])
    (List.mem_filter.mpr ⟨hn, ha⟩)
  rw [← map_statementsIn Statement.params (fun n => n.params?.getD []) (fun _ _ => rfl)] at hm
  obtain ⟨s, hs, e⟩ := List.mem_map.mp hm
  rw [← e]
  exact (rejected_of_processAll h).2 s hs

/-! ### The rewrite -/

theorem weave_nothing (removed : Nat → Bool) (i : Nat) (carried : Option Text) (nodes : List Node) :
    weave (fun _ => []) removed i carried nodes =
      ((nodes.zipIdx i).filter fun e => !removed e.2).map Prod.fst := by
  induction nodes generalizing i carried with
  | nil => rfl
  | cons n rest ih =>
    rw [weave, List.zipIdx_cons]
    by_cases hr : removed i
    · simp [hr, ih]
    · simp [hr, ih]

theorem mergeExport_empty (nodes : List Node) : mergeExport {} nodes = nodes := by
  have hm : Node.mergeBindings {} = id := by
    funext n
    rcases n with ⟨content, layout⟩ | ⟨_ | selector, children, layout⟩ <;> rfl
  rw [mergeExport, hm]
  split
  · exact List.modify_id _ _
  · rfl

theorem newExport_empty (nodes : List Node) (statements : List Statement) :
    newExport nodes statements {} = [] := by
  rw [newExport, if_pos]
  rw [Bool.or_eq_true]
  exact Or.inr rfl

theorem rewrite_of_nothing (stem : Text) (nodes : List Node) :
    rewrite (statementsIn nodes) {} (.ofNodes stem nodes) nodes = prune valueKeyword nodes := by
  have hg : (Imports.ofNodes stem nodes).newRules ++ newExport nodes (statementsIn nodes) {} = [] := by
    rw [newExport_empty]
    rfl
  have hk : removePaths (mergeExport {} ((Imports.ofNodes stem nodes).extendExisting nodes))
      (nestedPaths (statementsIn nodes)) = nodes.map (Node.pruned valueKeyword) := by
    have he : (Imports.ofNodes stem nodes).extendExisting nodes = nodes := rfl
    rw [he, mergeExport_empty, nestedPaths, map_path_statementsIn, removePaths_nested]
  have ha : anchoredAt [] = fun _ => [] := rfl
  have hf : (nodes.zipIdx.filter fun e => !isStatementAt (statementsIn nodes) e.2) =
      nodes.zipIdx.filter fun e => !e.1.isAtRule valueKeyword := by
    apply List.filter_congr
    intro e he
    rw [isStatementAt_statementsIn, List.mem_zipIdx_iff_getElem?.mp he, Option.any_some]
  have hz : nodes.filter (fun n => !n.isAtRule valueKeyword) =
      (nodes.zipIdx.filter fun e => !e.1.isAtRule valueKeyword).map Prod.fst := by
    conv => lhs; rw [← List.zipIdx_map_fst 0 nodes, List.filter_map]
    rfl
  calc
    _ = weave (fun _ => []) (isStatementAt (statementsIn nodes)) 0 none
        (nodes.map (Node.pruned valueKeyword)) := by rw [rewrite, hg, hk, ha]
    _ = ((nodes.zipIdx.filter fun e => !isStatementAt (statementsIn nodes) e.2).map
        Prod.fst).map (Node.pruned valueKeyword) := by
      rw [weave_nothing, List.zipIdx_map, List.filter_map, List.map_map, List.map_map]
      rfl
    _ = (nodes.filter fun n => !n.isAtRule valueKeyword).map (Node.pruned valueKeyword) := by
      rw [hf, hz]
    _ = prune valueKeyword nodes := (prune_eq_map valueKeyword nodes).symm

/-- If no statement is a definition, a run only takes the statements out. -/
theorem resolve_of_rejected (config : Config) (input : List Message) {sheet : Stylesheet}
    (h : ∀ n ∈ preorder sheet.nodes, n.isAtRule valueKeyword → Rejected (n.params?.getD [])) :
    resolve config input sheet =
      ({ sheet with nodes := prune valueKeyword sheet.nodes },
        { messages := []
          warnings := ((preorder sheet.nodes).filter (Node.isAtRule valueKeyword)).map
            invalidWarning }) := by
  have hp : published config input sheet = {} := by
    rw [published, collect_of_rejected config h]
    rfl
  have hn := rewrite_of_nothing config.stem sheet.nodes
  rw [resolve, hp, collect_of_rejected config h, hn]
  rfl

/-- The text of a document that defines nothing comes back without its outermost statements. -/
theorem resolveText_of_rejected (config : Config) (input : List Message) {s : Text}
    {sheet : Stylesheet} (hs : parse s = .ok sheet)
    (h : ∀ n ∈ preorder sheet.nodes, n.isAtRule valueKeyword → Rejected (n.params?.getD [])) :
    s = (pieces valueKeyword sheet.nodes).flatMap Piece.text ++ sheet.after ∧
    resolveText config input s =
      .ok {
        css := (pieces valueKeyword sheet.nodes).flatMap Piece.keptText ++ sheet.after
        report := {
          messages := []
          warnings := ((preorder sheet.nodes).filter (Node.isAtRule valueKeyword)).map
            invalidWarning } } ∧
    ((∀ n ∈ preorder sheet.nodes, ¬ n.isAtRule valueKeyword) →
      resolveText config input s = .ok { css := s, report := {} }) := by
  obtain ⟨m, ha, hf⟩ := parse_eq_ok_iff.mp hs
  have ht : printAll sheet.nodes ++ sheet.after = s := Nesting.finish_print ha hf
  have hr : resolveText config input s =
      .ok {
        css := printAll (prune valueKeyword sheet.nodes) ++ sheet.after
        report := {
          messages := []
          warnings := ((preorder sheet.nodes).filter (Node.isAtRule valueKeyword)).map
            invalidWarning } } := by
    rw [resolveText, hs]
    simp only [resolve_of_rejected config input h]
    rfl
  refine ⟨?_, ?_, ?_⟩
  · rw [flatMap_text_pieces, ht]
  · rw [flatMap_keptText_pieces, hr]
  · intro hn
    have hw : (preorder sheet.nodes).filter (Node.isAtRule valueKeyword) = [] :=
      List.filter_eq_nil_iff.mpr hn
    rw [hr, hw, prune_eq_self valueKeyword hn, ht]
    rfl

theorem resolveText_of_rejected_nested :
    ∃ sheet, parse "a{@VALUE x;b:c} @value{d:e}".toList = .ok sheet ∧
      (∀ n ∈ preorder sheet.nodes, n.isAtRule valueKeyword → Rejected (n.params?.getD [])) ∧
      resolveText {} [] "a{@VALUE x;b:c} @value{d:e}".toList =
        .ok {
          css := "a{b:c}".toList
          report := {
            warnings := [
              ⟨.invalidDefinition ['x'], some "@VALUE x;".toList⟩,
              ⟨.invalidDefinition [], some "@value{d:e}".toList⟩] } } := by
  have hx : Definition.read ['x'] = .error (.missingValue ['x']) := by
    rw [read_eq_readValue (by cbv) (by cbv)]
    cbv
  have he : Definition.read [] = .error .missingName := by cbv
  have hs : parse "a{@VALUE x;b:c} @value{d:e}".toList = .ok { nodes := [
      .block (.rule ['a']) [
        .leaf (.atRule "VALUE".toList ['x']) { afterName := [' '], semicolon := true },
        .leaf (.declaration ['b'] ['c']) { between := [':'] }] {},
      .block (.atRule valueKeyword []) [.leaf (.declaration ['d'] ['e']) { between := [':'] }]
        { before := [' '] }] } := by
    cbv
  have hr : ∀ n ∈ preorder [
      .block (.rule ['a']) [
        .leaf (.atRule "VALUE".toList ['x']) { afterName := [' '], semicolon := true },
        .leaf (.declaration ['b'] ['c']) { between := [':'] }] {},
      .block (.atRule valueKeyword []) [.leaf (.declaration ['d'] ['e']) { between := [':'] }]
        { before := [' '] }],
      n.isAtRule valueKeyword → Rejected (n.params?.getD []) := by
    simp only [preorder, Node.preorder, List.append_nil, List.cons_append, List.nil_append,
      List.forall_mem_cons]
    refine ⟨?_, fun _ => ⟨_, hx⟩, ?_, fun _ => ⟨_, he⟩, ?_, ?_⟩
    · intro h; cases h
    · intro h; cases h
    · intro h; cases h
    · intro n hn; cases hn
  exact ⟨_, hs, hr, (resolveText_of_rejected {} [] hs hr).2.1.trans (by cbv)⟩

end StyleValues
