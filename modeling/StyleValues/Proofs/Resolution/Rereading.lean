import StyleValues.Proofs.Definition.Values
import StyleValues.Proofs.Resolution.ExportPlace
import StyleValues.Proofs.Resolution.LoneStatements
import StyleValues.Proofs.Resolution.PlainRuns

/-!
# Reading a resolved sheet again

Names, values, selectors and parameters are written as they are, so the text
of a resolved sheet need not be read as that sheet. It is if every text fits
its place. Then the export block that is found again says what the messages
said, and a second run finds nothing to do. For each of the conditions there is
a run that misses it and loses a message or leaves no style sheet.
-/

set_option autoImplicit false

namespace StyleValues

open Text

section
variable (config : Config) (input : List Message) {source : Text} {sheet : Stylesheet}

/-- A resolved sheet is what its text is read as, exactly if all that was written is read back. -/
theorem parse_resolve_iff (hs : parse source = .ok sheet)
    (hx : Extensible config input sheet) :
    parse (resolve config input sheet).1.print = .ok (resolve config input sheet).1 ↔
      Rereadable sheet (resolve config input sheet).1 := by
  obtain ⟨-, hl, ha⟩ := parse_eq_ok_iff_legible.mp hs
  have hr := arranged_resolve config input ha hx
  rw [parse_eq_ok_iff_legible]
  constructor
  · rintro ⟨-, hn, -⟩ p hp -
    exact hn p hp
  · intro hn
    refine ⟨rfl, ?_, hr⟩
    intro p hp
    -- What the source has in that form was read from the source.
    by_cases h : p ∈ placedIn [] sheet.nodes
    · exact hl p h
    · exact hn p hp h

variable {config input}

/-- If all that a run writes fits its place, as it does where the definitions are plain, then a result
is read as the sheet that the run left. -/
theorem parse_resolve_of_fitting (hs : parse source = .ok sheet)
    (hf : PlainRun config input sheet ∨ Fitting config input sheet) :
    parse (resolve config input sheet).1.print = .ok (resolve config input sheet).1 := by
  obtain ⟨-, hl, -⟩ := parse_eq_ok_iff_legible.mp hs
  have hf := hf.elim (fun h => h.fitting hl) id
  exact (parse_resolve_iff config input hs hf.extensible).mpr (hf.rereadable hl)

end

/-! ### No statement is left -/

section
variable {name : Text}

def Without (name : Text) (nodes : List Node) : Prop := ∀ n ∈ preorder nodes, ¬ n.isAtRule name

theorem without_append {ms ns : List Node} :
    Without name (ms ++ ns) ↔ Without name ms ∧ Without name ns := by
  rw [Without, preorder_append, List.forall_mem_append]
  rfl

theorem without_leaf {content : Leaf} {layout : Layout} {rest : List Node} :
    Without name (.leaf content layout :: rest) ↔
      ¬ (Node.leaf content layout).isAtRule name ∧ Without name rest :=
  List.forall_mem_cons

theorem without_block {head : Head} {children rest : List Node} {layout : Layout} :
    Without name (.block head children layout :: rest) ↔
      ¬ (Node.block head children layout).isAtRule name ∧ Without name children ∧
        Without name rest := by
  rw [Without, preorder, Node.preorder, List.cons_append, List.forall_mem_cons, List.forall_mem_append]
  rfl

theorem without_flatMap {α : Type} {f : α → List Node} {as : List α}
    (h : ∀ a ∈ as, Without name (f a)) : Without name (as.flatMap f) := by
  induction as with
  | nil => exact List.forall_mem_nil _
  | cons a as ih =>
    obtain ⟨ha, hr⟩ := List.forall_mem_cons.mp h
    rw [List.flatMap_cons, without_append]
    exact ⟨ha, ih hr⟩

theorem without_map_withBefore (before : Text) {nodes : List Node} :
    Without name (nodes.map (Node.withBefore before)) ↔ Without name nodes := by
  induction nodes with
  | nil => exact Iff.rfl
  | cons n rest ih =>
    rcases n with ⟨_ | _ | _, layout⟩ | ⟨_ | _, children, layout⟩
    all_goals
      rw [List.map_cons, Node.withBefore, Node.withLayout]
      first
      | rw [without_leaf, without_leaf, ih]; exact Iff.rfl
      | rw [without_block, without_block, ih]; exact Iff.rfl

theorem without_prune (nodes : List Node) : Without name (prune name nodes) := by
  induction nodes using forestInduction with
  | nil => exact List.forall_mem_nil _
  | leaf content layout rest ih =>
    rw [prune]
    split
    · exact ih
    · next h => exact without_leaf.mpr ⟨h, ih⟩
  | block head children layout rest ihc ihr =>
    rw [prune]
    split
    · exact ihr
    · next h =>
      refine without_block.mpr ⟨?_, ihc, ihr⟩
      cases head <;> exact h

theorem without_replacement (r : Replacement) {nodes : List Node} (h : Without name nodes) :
    Without name (r.nodes nodes) := by
  induction nodes using forestInduction with
  | nil => exact h
  | leaf content layout rest ih =>
    obtain ⟨hn, hr⟩ := without_leaf.mp h
    refine without_leaf.mpr ⟨?_, ih hr⟩
    cases content <;> exact hn
  | block head children layout rest ihc ihr =>
    obtain ⟨hn, hc, hr⟩ := without_block.mp h
    rw [Replacement.nodes, Replacement.node]
    split
    · exact without_block.mpr ⟨hn, hc, ihr hr⟩
    · refine without_block.mpr ⟨?_, ihc hc, ihr hr⟩
      cases head <;> exact hn

theorem without_newEntries (indent : Option Text) (entries : List (Text × Text)) :
    Without name (entries.map fun e => newEntry indent e.1 e.2) := by
  rw [← prune_newEntries name]
  exact without_prune _

end

theorem without_rewritten (stem : Text) (nodes : List Node) (bs : Bindings) :
    Without valueKeyword (rewritten stem nodes bs) := by
  have hg : ∀ n ∈ generatedRules stem nodes bs, Without valueKeyword [n] := by
    intro n hn
    obtain ⟨selector, entries, layout, rfl, -⟩ := eq_rule_of_mem_generatedRules stem nodes bs hn
    exact without_block.mpr ⟨Bool.false_ne_true, without_newEntries none entries,
      List.forall_mem_nil _⟩
  have hl : ∀ ns : List Node, (∀ n ∈ ns, Without valueKeyword [n]) → Without valueKeyword ns := by
    intro ns h
    have hs := without_flatMap (f := fun n => [n]) h
    rwa [List.flatMap_singleton'] at hs
  apply without_flatMap
  intro e hm
  rw [without_append]
  constructor
  · exact hl _ fun n hn => hg n (mem_generatedRules stem nodes bs hn)
  · rw [survivorAt]
    split
    · exact List.forall_mem_nil _
    · next ha =>
      have he : ¬ (extendedAt stem nodes bs e.2 e.1).isAtRule valueKeyword := by
        by_cases hx : e.1.selector?.any isExchangeSelector
        · intro hr
          have hs := selector?_extendedAt stem nodes bs e.2 e.1
          rw [selector?_of_isAtRule hr] at hs
          rw [← hs] at hx
          cases hx
        · rw [extendedAt_of_not_exchange stem bs (List.mem_zipIdx_iff_getElem?.mp hm) hx]
          exact ha
      have hp : prune valueKeyword [extendedAt stem nodes bs e.2 e.1] =
          [(extendedAt stem nodes bs e.2 e.1).pruned valueKeyword] := by
        rw [prune, if_neg he]
        rfl
      rw [← hp]
      exact without_prune _

theorem without_resolve (config : Config) (input : List Message) (sheet : Stylesheet) :
    Without valueKeyword (resolve config input sheet).1.nodes := by
  have hr : (resolve config input sheet).1.nodes =
      (replacementOf config input sheet).apply (rewriteOf config input sheet) := rfl
  have hw : Without valueKeyword (rewriteOf config input sheet) := by
    rw [← without_map_withBefore [], rewriteOf, imports_collect, rewrite_eq_rewritten,
      without_map_withBefore]
    exact without_rewritten _ _ _
  rw [hr, Replacement.apply]
  split
  · exact hw
  · exact without_replacement _ hw

theorem resolve_of_without (config : Config) (input : List Message) {sheet : Stylesheet}
    (h : Without valueKeyword sheet.nodes) : resolve config input sheet = (sheet, {}) := by
  have hr := resolve_of_rejected config input fun n hn ha => absurd ha (h n hn)
  have hf : (preorder sheet.nodes).filter (Node.isAtRule valueKeyword) = [] :=
    List.filter_eq_nil_iff.mpr h
  rw [hr, prune_eq_self valueKeyword h, hf]
  rfl

/-- A run on what a run has left, with whatever configuration and messages, says nothing and leaves
every node with its layout. -/
theorem resolve_of_resolve (config again : Config) (input messages : List Message)
    (sheet : Stylesheet) :
    Without valueKeyword (resolve config input sheet).1.nodes ∧
      resolve again messages (resolve config input sheet).1 =
        ((resolve config input sheet).1, {}) := by
  have hw := without_resolve config input sheet
  exact ⟨hw, resolve_of_without again messages hw⟩

/-! ### The messages found again -/

/-- Whether a result is read as a sheet whose first export block has what the messages say. -/
def Resolved.Found (p : Resolved) : Prop :=
  ∃ again, parse p.css = .ok again ∧ ∀ e ∈ p.report.entries, ∃ i block,
    findExport? again.nodes = some i ∧ again.nodes[i]? = some block ∧
      block.entries.lookup e.1 = some e.2

/-- If the definitions are plain, or else all that is written fits its place, then a result is read as
the sheet that the run left. If besides no rule in front of the export block becomes one, then the
messages are found there. -/
theorem exports_of_fitting (config : Config) (input : List Message) {source : Text}
    {sheet : Stylesheet} (hs : parse source = .ok sheet)
    (hf : PlainRun config input sheet ∨ Fitting config input sheet)
    (hk : FrontStays config input sheet) :
    ∃ p, resolveText config input source = .ok p ∧ p.report = (resolve config input sheet).2 ∧
      parse p.css = .ok (resolve config input sheet).1 ∧ p.Found := by
  have hp := parse_resolve_of_fitting hs hf
  refine ⟨_, resolveText_of_parse config input hs, rfl, hp, _, hp, ?_⟩
  intro e he
  obtain ⟨i, block, hi, hn, hl⟩ := lookup_export_resolve he
  have hm : (published config input sheet).isEmpty = false := by
    rw [Bool.eq_false_iff, Bindings.isEmpty, Ne, List.isEmpty_iff]
    intro hm
    rw [entries_resolve, hm] at he
    cases he
  exact ⟨i, block, (findExport?_resolve hk hm).trans hi, hn, hl⟩

theorem frontStays_chainSheet : FrontStays {} [.scopedName ['b'] ['c']] chainSheet := by
  have hplace : exportPlace chainSheet.nodes = 1 := by
    rw [exportPlace, statementsIn_chainSheet]
    rfl
  intro i _ _ _ hn hi
  rw [hplace, Nat.lt_one_iff] at hi
  rw [hi] at hn
  cases hn

theorem entries_chainSheet : (resolve {} [.scopedName ['b'] ['c']] chainSheet).2.entries =
    [(['a'], "__value__a__0".toList), (['b'], "__value__a__0 x".toList)] := by
  rw [entries_resolve, published, bindings_collect, definitionsIn_chainSheet]
  rfl

/-- An imported name in a value, which stands for a selector and in a call. -/
theorem exports_of_fitting_chain :
    ∃ p, resolveText {} [.scopedName ['b'] ['c']]
        "@value a from 'p';@value b: a x;c{d:calc(b)}".toList = .ok p ∧
      p.report.entries = [(['a'], "__value__a__0".toList), (['b'], "__value__a__0 x".toList)] ∧
      p.Found := by
  obtain ⟨p, hp, hr, -, hf⟩ := exports_of_fitting {} [.scopedName ['b'] ['c']] parse_chainSheet
    (Or.inl plainRun_chainSheet) frontStays_chainSheet
  exact ⟨p, hp, by rw [hr]; exact entries_chainSheet, hf⟩

/-! ### A second run -/

/-- The texts that a run leaves alone and says nothing about are those without statements. -/
theorem resolveText_eq_self_iff (config : Config) (input : List Message) (s : Text) :
    resolveText config input s = .ok { css := s, report := {} } ↔
      ∃ sheet, parse s = .ok sheet ∧ Without valueKeyword sheet.nodes := by
  constructor
  · intro h
    cases hs : parse s with
    | error fault =>
      rw [resolveText, hs] at h
      cases h
    | ok sheet =>
      rw [resolveText_of_parse config input hs] at h
      obtain ⟨-, hr⟩ := Resolved.mk.inj (Except.ok.inj h)
      have hm : (resolve config input sheet).2.messages = [] := by rw [hr]
      rw [resolve_of_rejected config input (rejected_of_messages hm)] at hr
      have hw := (Report.mk.inj hr).2
      rw [List.map_eq_nil_iff, List.filter_eq_nil_iff] at hw
      exact ⟨sheet, rfl, hw⟩
  · rintro ⟨sheet, hs, hw⟩
    obtain ⟨m, ha, hm⟩ := parse_eq_ok_iff.mp hs
    have hp : printAll sheet.nodes ++ sheet.after = s := Nesting.finish_print ha hm
    rw [resolveText_of_parse config input hs, resolve_of_without config input hw, Stylesheet.print,
      hp]

/-- Whether a run on a result, with whatever configuration and messages, leaves it as it is and says
nothing. -/
def Resolved.Settled (p : Resolved) : Prop :=
  ∀ (again : Config) (messages : List Message),
    resolveText again messages p.css = .ok { css := p.css, report := {} }

/-- If the definitions are plain, or else all that is written fits its place, then a second run has
nothing to do. -/
theorem settled_of_fitting (config : Config) (input : List Message) {source : Text}
    {sheet : Stylesheet} (hs : parse source = .ok sheet)
    (hf : PlainRun config input sheet ∨ Fitting config input sheet) :
    ∃ p, resolveText config input source = .ok p ∧ p.report = (resolve config input sheet).2 ∧
      p.Settled := by
  refine ⟨_, resolveText_of_parse config input hs, rfl, ?_⟩
  intro again messages
  exact (resolveText_eq_self_iff again messages _).mpr
    ⟨_, parse_resolve_of_fitting hs hf, without_resolve config input sheet⟩

theorem settled_of_fitting_chain :
    ∃ p, resolveText {} [.scopedName ['b'] ['c']]
        "@value a from 'p';@value b: a x;c{d:calc(b)}".toList = .ok p ∧
      p.report.entries = [(['a'], "__value__a__0".toList), (['b'], "__value__a__0 x".toList)] ∧
      p.Settled := by
  obtain ⟨p, hp, hr, hs⟩ := settled_of_fitting {} [.scopedName ['b'] ['c']] parse_chainSheet
    (Or.inl plainRun_chainSheet)
  exact ⟨p, hp, by rw [hr]; exact entries_chainSheet, hs⟩

/-! ### Texts that do not fit -/

def statementNode (params : Text) : Node :=
  .leaf (.atRule valueKeyword params) { afterName := [' '], semicolon := true }

def ruleNode (selector property value : Text) : Node :=
  .block (.rule selector) [.leaf (.declaration property value) { between := [':'] }] {}

theorem leavesFault_name : LeavesFault {} [] "@value a( b".toList := by
  have hd : Definition.read "a( b".toList = .ok (.value "a(".toList ['b']) :=
    (read_eq_readValue (by cbv) (by cbv)).trans (by cbv)
  have hs : parse "@value a( b".toList = .ok { nodes := [
      .leaf (.atRule valueKeyword "a( b".toList) { afterName := [' '] }] } := by
    cbv
  have hp : ∃ fault, parse ":export \x7b\n  a(: b;\n\x7d".toList = .error fault := ⟨_, by cbv⟩
  exact leavesFault_of_resolve hs (congrArg Prod.fst (resolve_lone {} _ hd)) rfl hp

theorem leavesFault_value : LeavesFault {} [] "@value a: (b".toList := by
  have hd : Definition.read "a: (b".toList = .ok (.value ['a'] "(b".toList) :=
    (read_eq_readValue (by cbv) (by cbv)).trans (by cbv)
  have hs : parse "@value a: (b".toList = .ok { nodes := [
      .leaf (.atRule valueKeyword "a: (b".toList) { afterName := [' '] }] } := by
    cbv
  have hp : ∃ fault, parse ":export \x7b\n  a: (b;\n\x7d".toList = .error fault := ⟨_, by cbv⟩
  exact leavesFault_of_resolve hs (congrArg Prod.fst (resolve_lone {} _ hd)) rfl hp

theorem leavesFault_stem : LeavesFault { stem := ['\x7d'] } [] "@value x from 'p';".toList := by
  have hd : Definition.read "x from 'p'".toList = .ok (.imports ['p'] [⟨['x'], ['x']⟩]) :=
    (read_eq_readImports (by cbv) (by cbv)).trans (by cbv)
  have hs : parse "@value x from 'p';".toList =
      .ok { nodes := [statementNode "x from 'p'".toList] } := by
    cbv
  have ha : Allocator.allocate { stem := ['\x7d'] } ['x'] =
      ("\x7dx__0".toList, ⟨['\x7d'], 1, ["\x7dx__0".toList]⟩) := by
    cbv
  have hr := resolve_lone_import { stem := ['\x7d'] } { afterName := [' '], semicolon := true } hd ha
  have hp : ∃ fault, parse (":import('p') \x7b\n  \x7dx__0: x;\n\x7d".toList ++
      "\n:export \x7b\n  x: \x7dx__0;\n\x7d".toList) = .error fault := ⟨_, by cbv⟩
  exact leavesFault_of_resolve hs hr rfl hp

theorem leavesFault_path : LeavesFault {} [] "@value x from '\"\\'';".toList := by
  have hd : Definition.read "x from '\"\\''".toList =
      .ok (.imports barePath [⟨['x'], ['x']⟩]) :=
    (read_eq_readImports (by cbv) (by cbv)).trans (by cbv)
  have hs : parse "@value x from '\"\\'';".toList =
      .ok { nodes := [statementNode "x from '\"\\''".toList] } := by
    cbv
  have ha : Allocator.allocate { stem := "__value__".toList } ['x'] =
      ("__value__x__0".toList, ⟨"__value__".toList, 1, ["__value__x__0".toList]⟩) := by
    cbv
  have hr := resolve_lone_import {} { afterName := [' '], semicolon := true } hd ha
  refine leavesFault_of_resolve hs hr rfl (exists_fault_of_openFault ?_ rfl rfl)
  exact ⟨':', 'i', _, rfl, rfl, by decide, by decide, by decide⟩

theorem leavesFault_identifier :
    LeavesFault {} [.scopedName ['n'] [')']] "@value n: t;a{b:(x )}".toList := by
  have hd : Definition.read "n: t".toList = .ok (.value ['n'] ['t']) :=
    (read_eq_readValue (by cbv) (by cbv)).trans (by cbv)
  have hs : parse "@value n: t;a{b:(x )}".toList = .ok { nodes := [
      statementNode "n: t".toList, ruleNode ['a'] ['b'] "(x )".toList] } := by
    cbv
  have hr : (resolve {} [.scopedName ['n'] [')']] { nodes := [
      statementNode "n: t".toList, ruleNode ['a'] ['b'] "(x )".toList] }).1 = { nodes := [
        (Node.rule exportSelector [.declaration ['n'] ['t']]).withBefore [],
        ruleNode ['a'] ['b'] "(x t".toList] } := by
    rw [resolve, published, collect_definition {} rfl hd]
    rfl
  have hp : ∃ fault, parse ":export \x7b\n  n: t;\n\x7da\x7bb:(x t\x7d".toList = .error fault :=
    ⟨_, by cbv⟩
  exact leavesFault_of_resolve hs hr rfl hp

theorem leavesFault_text : LeavesFault {} [] "@value x: '\"';a\x7bb:\"x\"\x7d".toList := by
  have hd : Definition.read "x: '\"'".toList = .ok (.value ['x'] "'\"'".toList) :=
    (read_eq_readValue (by cbv) (by cbv)).trans (by cbv)
  have hs : parse "@value x: '\"';a\x7bb:\"x\"\x7d".toList = .ok { nodes := [
      statementNode "x: '\"'".toList, ruleNode ['a'] ['b'] "\"x\"".toList] } := by
    cbv
  have hr : (resolve {} [] { nodes := [
      statementNode "x: '\"'".toList, ruleNode ['a'] ['b'] "\"x\"".toList] }).1 = { nodes := [
        (Node.rule exportSelector [.declaration ['x'] "'\"'".toList]).withBefore [],
        ruleNode ['a'] ['b'] "\"'\"'\"".toList] } := by
    rw [resolve, published, collect_definition {} rfl hd]
    rfl
  have hp : ∃ fault, parse ":export \x7b\n  x: '\"';\n\x7da\x7bb:\"'\"'\"\x7d".toList = .error fault :=
    ⟨_, by cbv⟩
  exact leavesFault_of_resolve hs hr rfl hp

theorem leavesFault_selector : LeavesFault {} [] "@value x: @;x y{c:d}".toList := by
  have hd : Definition.read "x: @".toList = .ok (.value ['x'] ['@']) :=
    (read_eq_readValue (by cbv) (by cbv)).trans (by cbv)
  have hs : parse "@value x: @;x y{c:d}".toList = .ok { nodes := [
      statementNode "x: @".toList, ruleNode "x y".toList ['c'] ['d']] } := by
    cbv
  have hr : (resolve {} [] { nodes := [
      statementNode "x: @".toList, ruleNode "x y".toList ['c'] ['d']] }).1 = { nodes := [
        (Node.rule exportSelector [.declaration ['x'] ['@']]).withBefore [],
        ruleNode "@ y".toList ['c'] ['d']] } := by
    rw [resolve, published, collect_definition {} rfl hd]
    rfl
  have hp : ∃ fault, parse ":export \x7b\n  x: @;\n\x7d@ y\x7bc:d\x7d".toList = .error fault :=
    ⟨_, by cbv⟩
  exact leavesFault_of_resolve hs hr rfl hp

def LosesMessage (config : Config) (input : List Message) (source : Text) : Prop :=
  ∃ p, resolveText config input source = .ok p ∧ ¬ p.Found

def Disturbs (config : Config) (input : List Message) (source : Text) : Prop :=
  ∃ p, resolveText config input source = .ok p ∧
    resolveText config [] p.css ≠ .ok { css := p.css, report := {} }

section
variable {config : Config} {input : List Message} {source : Text}

theorem LeavesFault.losesMessage (h : LeavesFault config input source) :
    LosesMessage config input source := by
  obtain ⟨p, hp, fault, hf⟩ := h
  refine ⟨p, hp, ?_⟩
  rintro ⟨again, ha, -⟩
  rw [hf] at ha
  cases ha

theorem LeavesFault.disturbs (h : LeavesFault config input source) : Disturbs config input source := by
  obtain ⟨p, hp, fault, hf⟩ := h
  refine ⟨p, hp, ?_⟩
  intro hq
  rw [resolveText, hf] at hq
  cases hq

theorem disturbs_of_mem {sheet result again : Stylesheet} {css : Text} {n : Node}
    (hs : parse source = .ok sheet) (hr : (resolve config input sheet).1 = result)
    (hp : result.print = css) (ha : parse css = .ok again) (hn : n ∈ preorder again.nodes)
    (hv : n.isAtRule valueKeyword) : Disturbs config input source := by
  have ht := resolveText_of_parse config input hs
  rw [hr, hp] at ht
  refine ⟨_, ht, ?_⟩
  intro h
  obtain ⟨sheet', hs', hw⟩ := (resolveText_eq_self_iff config [] css).mp h
  cases ha.symm.trans hs'
  exact hw n hn hv

theorem losesMessage_of_front {sheet : Stylesheet} {css : Text} {block : Node} {rest : List Node}
    {result : Stylesheet × Report} {e : Text × Text} (hs : parse source = .ok sheet)
    (hr : resolve config input sheet = result) (hp : result.1.print = css)
    (ha : parse css = .ok { nodes := block :: rest }) (hx : isExportBlock block)
    (he : e ∈ result.2.entries) (hl : block.entries.lookup e.1 = none) :
    LosesMessage config input source := by
  have ht := resolveText_of_parse config input hs
  rw [hr, hp] at ht
  refine ⟨_, ht, ?_⟩
  rintro ⟨again, hagain, h⟩
  cases ha.symm.trans hagain
  obtain ⟨i, b, hi, hb, hlookup⟩ := h e he
  have hfirst : findExport? (block :: rest) = some 0 := by
    rw [findExport?, List.findIdx?_cons, if_pos hx]
  cases hfirst.symm.trans hi
  cases hb
  rw [hl] at hlookup
  cases hlookup

end

theorem losesMessage_name : LosesMessage {} [] "@value @x: y;".toList := by
  have hd : Definition.read "@x: y".toList = .ok (.value "@x".toList ['y']) :=
    (read_eq_readValue (by cbv) (by cbv)).trans (by cbv)
  have hs : parse "@value @x: y;".toList = .ok { nodes := [statementNode "@x: y".toList] } := by cbv
  have ha : parse ":export \x7b\n  @x: y;\n\x7d".toList = .ok { nodes := [
      .block (.rule exportSelector)
        [.leaf (.atRule ['x'] ": y".toList) { before := "\n  ".toList, semicolon := true }]
        { between := [' '], after := ['\n'] }] } := by
    cbv
  exact losesMessage_of_front (e := ("@x".toList, ['y'])) hs (resolve_lone {} _ hd) rfl ha rfl
    (List.mem_singleton.mpr rfl) rfl

theorem losesMessage_block : LosesMessage {} [] ":export{@x y}@value a: b;".toList := by
  have hd : Definition.read "a: b".toList = .ok (.value ['a'] ['b']) :=
    (read_eq_readValue (by cbv) (by cbv)).trans (by cbv)
  have hs : parse ":export{@x y}@value a: b;".toList = .ok { nodes := [
      .block (.rule exportSelector) [.leaf (.atRule ['x'] ['y']) { afterName := [' '] }] {},
      statementNode "a: b".toList] } := by
    cbv
  have hr : resolve {} [] { nodes := [
      .block (.rule exportSelector) [.leaf (.atRule ['x'] ['y']) { afterName := [' '] }] {},
      statementNode "a: b".toList] } = ({ nodes := [
        .block (.rule exportSelector)
          [.leaf (.atRule ['x'] ['y']) { afterName := [' '] }, .declaration ['a'] ['b']]
          { after := ['\n'] }] },
        { messages := [.boundName "icss-values".toList ['a'] ['b']] }) := by
    rw [resolve, published, collect_definition {} rfl hd]
    rfl
  have ha : parse ":export\x7b@x y\n  a: b;\n\x7d".toList = .ok { nodes := [
      .block (.rule exportSelector)
        [.leaf (.atRule ['x'] "y\n  a: b".toList) { afterName := [' '], semicolon := true }]
        { after := ['\n'] }] } := by
    cbv
  exact losesMessage_of_front (e := (['a'], ['b'])) hs hr rfl ha rfl (List.mem_singleton.mpr rfl) rfl

theorem losesMessage_front : LosesMessage {} [] "x{c:d}@value x: :export;".toList := by
  have hd : Definition.read "x: :export".toList = .ok (.value ['x'] exportSelector) :=
    (read_eq_readValue (by cbv) (by cbv)).trans (by cbv)
  have hs : parse "x{c:d}@value x: :export;".toList = .ok { nodes := [
      ruleNode ['x'] ['c'] ['d'], statementNode "x: :export".toList] } := by
    cbv
  have hr : resolve {} [] { nodes := [
      ruleNode ['x'] ['c'] ['d'], statementNode "x: :export".toList] } = ({ nodes := [
        ruleNode exportSelector ['c'] ['d'],
        (Node.rule exportSelector [.declaration ['x'] exportSelector]).withBefore []] },
        { messages := [.boundName "icss-values".toList ['x'] exportSelector] }) := by
    rw [resolve, published, collect_definition {} rfl hd]
    rfl
  have ha : parse ":export\x7bc:d\x7d:export \x7b\n  x: :export;\n\x7d".toList = .ok { nodes := [
      ruleNode exportSelector ['c'] ['d'],
      (Node.rule exportSelector [.declaration ['x'] exportSelector]).withBefore []] } := by
    cbv
  exact losesMessage_of_front (e := (['x'], exportSelector)) hs hr rfl ha rfl
    (List.mem_singleton.mpr rfl) rfl

theorem disturbs_name : Disturbs {} [] "@value @VALUE: b;".toList := by
  have hd : Definition.read "@VALUE: b".toList = .ok (.value "@VALUE".toList ['b']) :=
    (read_eq_readValue (by cbv) (by cbv)).trans (by cbv)
  have hs : parse "@value @VALUE: b;".toList = .ok { nodes := [statementNode "@VALUE: b".toList] } := by
    cbv
  have ha : parse ":export \x7b\n  @VALUE: b;\n\x7d".toList = .ok { nodes := [
      .block (.rule exportSelector)
        [.leaf (.atRule "VALUE".toList ": b".toList) { before := "\n  ".toList, semicolon := true }]
        { between := [' '], after := ['\n'] }] } := by
    cbv
  exact disturbs_of_mem hs (congrArg Prod.fst (resolve_lone {} _ hd)) rfl ha
    (List.mem_cons_of_mem _ List.mem_cons_self) rfl

theorem disturbs_params :
    Disturbs {} [.scopedName ['n'] ['.', 'x']] "@value n: alue y;@v.x;".toList := by
  have hd : Definition.read "n: alue y".toList = .ok (.value ['n'] "alue y".toList) :=
    (read_eq_readValue (by cbv) (by cbv)).trans (by cbv)
  have hs : parse "@value n: alue y;@v.x;".toList = .ok { nodes := [
      statementNode "n: alue y".toList,
      .leaf (.atRule ['v'] ['.', 'x']) { semicolon := true }] } := by
    cbv
  have hr : (resolve {} [.scopedName ['n'] ['.', 'x']] { nodes := [
      statementNode "n: alue y".toList,
      .leaf (.atRule ['v'] ['.', 'x']) { semicolon := true }] }).1 = { nodes := [
        (Node.rule exportSelector [.declaration ['n'] "alue y".toList]).withBefore [],
        .leaf (.atRule ['v'] "alue y".toList) { semicolon := true }] } := by
    rw [resolve, published, collect_definition {} rfl hd]
    rfl
  have ha : parse ":export \x7b\n  n: alue y;\n\x7d@value y;".toList = .ok { nodes := [
      (Node.rule exportSelector [.declaration ['n'] "alue y".toList]).withBefore [],
      statementNode ['y']] } := by
    cbv
  exact disturbs_of_mem hs hr rfl ha
    (List.mem_cons_of_mem _ (List.mem_cons_of_mem _ List.mem_cons_self)) rfl

/-- An entry behind an at-rule without a semicolon can complete its name to that of a statement. -/
theorem disturbs_block : Disturbs {} [] ":export{c:d;@valu}@value e: x;".toList := by
  have hd : Definition.read "e: x".toList = .ok (.value ['e'] ['x']) :=
    (read_eq_readValue (by cbv) (by cbv)).trans (by cbv)
  have hs : parse ":export{c:d;@valu}@value e: x;".toList = .ok { nodes := [
      .block (.rule exportSelector)
        [.leaf (.declaration ['c'] ['d']) { between := [':'], semicolon := true },
          .leaf (.atRule "valu".toList []) {}] {},
      statementNode "e: x".toList] } := by
    cbv
  have hr : (resolve {} [] { nodes := [
      .block (.rule exportSelector)
        [.leaf (.declaration ['c'] ['d']) { between := [':'], semicolon := true },
          .leaf (.atRule "valu".toList []) {}] {},
      statementNode "e: x".toList] }).1 = { nodes := [
        .block (.rule exportSelector)
          [.leaf (.declaration ['c'] ['d']) { between := [':'], semicolon := true },
            .leaf (.atRule "valu".toList []) {},
            .leaf (.declaration ['e'] ['x']) { between := ": ".toList, semicolon := true }]
          { after := ['\n'] }] } := by
    rw [resolve, published, collect_definition {} rfl hd]
    rfl
  have ha : parse ":export\x7bc:d;@value: x;\n\x7d".toList = .ok { nodes := [
      .block (.rule exportSelector)
        [.leaf (.declaration ['c'] ['d']) { between := [':'], semicolon := true },
          .leaf (.atRule valueKeyword ": x".toList) { semicolon := true }] { after := ['\n'] }] } := by
    cbv
  exact disturbs_of_mem hs hr rfl ha
    (List.mem_cons_of_mem _ (List.mem_cons_of_mem _ List.mem_cons_self)) rfl

/-- A message can be lost by its name, its value, its placeholder or the path that it comes from, by
the identifier or the text in which a value is written, and by what stands in or in front of the
export block. -/
theorem messages_lost :
    (LosesMessage {} [] "@value a( b".toList ∧
      LosesMessage {} [] "@value @x: y;".toList) ∧
    LosesMessage {} [] "@value a: (b".toList ∧
    LosesMessage { stem := ['\x7d'] } [] "@value x from 'p';".toList ∧
    LosesMessage {} [] "@value x from '\"\\'';".toList ∧
    LosesMessage {} [.scopedName ['n'] [')']] "@value n: t;a{b:(x )}".toList ∧
    (LosesMessage {} [] "@value x: '\"';a\x7bb:\"x\"\x7d".toList ∧
      LosesMessage {} [] "@value x: @;x y{c:d}".toList) ∧
    LosesMessage {} [] ":export{@x y}@value a: b;".toList ∧
    LosesMessage {} [] "x{c:d}@value x: :export;".toList :=
  ⟨⟨leavesFault_name.losesMessage, losesMessage_name⟩, leavesFault_value.losesMessage,
    leavesFault_stem.losesMessage, leavesFault_path.losesMessage, leavesFault_identifier.losesMessage,
    ⟨leavesFault_text.losesMessage, leavesFault_selector.losesMessage⟩, losesMessage_block,
    losesMessage_front⟩

/-- A second run can be disturbed by all of these, a rule in front of the export block apart, and
besides by a name, parameters or an entry that make a statement of what was none. -/
theorem results_disturbed :
    (Disturbs {} [] "@value a( b".toList ∧
      Disturbs {} [] "@value @VALUE: b;".toList) ∧
    Disturbs {} [] "@value a: (b".toList ∧
    Disturbs { stem := ['\x7d'] } [] "@value x from 'p';".toList ∧
    Disturbs {} [] "@value x from '\"\\'';".toList ∧
    Disturbs {} [.scopedName ['n'] [')']] "@value n: t;a{b:(x )}".toList ∧
    (Disturbs {} [] "@value x: '\"';a\x7bb:\"x\"\x7d".toList ∧
      Disturbs {} [] "@value x: @;x y{c:d}".toList ∧
      Disturbs {} [.scopedName ['n'] ['.', 'x']] "@value n: alue y;@v.x;".toList) ∧
    Disturbs {} [] ":export{c:d;@valu}@value e: x;".toList :=
  ⟨⟨leavesFault_name.disturbs, disturbs_name⟩, leavesFault_value.disturbs, leavesFault_stem.disturbs,
    leavesFault_path.disturbs, leavesFault_identifier.disturbs,
    ⟨leavesFault_text.disturbs, leavesFault_selector.disturbs, disturbs_params⟩, disturbs_block⟩

end StyleValues
