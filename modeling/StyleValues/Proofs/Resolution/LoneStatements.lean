import StyleValues.Proofs.Interchange.ImportRules
import StyleValues.Proofs.Resolution.ExportBlock
import StyleValues.Proofs.Substitution.Tokens

/-!
# Sheets with one statement

With a single statement there is nothing to substitute in it. A definition
publishes the value that it gives, an import the placeholder that it gets. What
the run leaves can be written down, and may be no style sheet.
-/

set_option autoImplicit false

namespace StyleValues

theorem resolveText_of_parse (config : Config) (input : List Message) {source : Text}
    {sheet : Stylesheet} (hs : parse source = .ok sheet) :
    resolveText config input source =
      .ok { css := (resolve config input sheet).1.print, report := (resolve config input sheet).2 } := by
  rw [resolveText, hs]

theorem collect_singleton (config : Config) {sheet : Stylesheet} {s : Statement}
    (hs : statementsIn sheet.nodes = [s]) :
    collect config sheet = (Progress.start config.stem sheet.nodes).process s := by
  rw [collect, hs, Progress.processAll, List.foldl_cons, List.foldl_nil]

section
variable (config : Config) {params name value : Text} (layout : Layout)

/-- A single definition gives its name the value as it stands. -/
theorem collect_definition {sheet : Stylesheet} {s : Statement} (hs : statementsIn sheet.nodes = [s])
    (hd : Definition.read s.params = .ok (.value name value)) :
    collect config sheet =
      (Progress.start config.stem sheet.nodes).define s ⟨name, value, .document⟩ := by
  have hv : (Progress.start config.stem sheet.nodes).bindings.resolve value = value :=
    substitute_none value
  rw [collect_singleton config hs, Progress.process, hd]
  simp only [hv]

theorem collect_lone (hd : Definition.read params = .ok (.value name value)) :
    collect config { nodes := [.leaf (.atRule valueKeyword params) layout] } =
      (Progress.start config.stem [.leaf (.atRule valueKeyword params) layout]).define
        ⟨[0], params, (Node.leaf (.atRule valueKeyword params) layout).print.trim⟩
        ⟨name, value, .document⟩ :=
  collect_definition config rfl hd

theorem resolve_lone (hd : Definition.read params = .ok (.value name value)) :
    resolve config [] { nodes := [.leaf (.atRule valueKeyword params) layout] } =
      ({ nodes := [(Node.rule exportSelector [.declaration name value]).withBefore layout.before] },
        { messages := [.boundName config.plugin name value]
          warnings := (collect config
            { nodes := [.leaf (.atRule valueKeyword params) layout] }).warnings }) := by
  have hs : statementsIn [.leaf (.atRule valueKeyword params) layout] =
      [⟨[0], params, (Node.leaf (.atRule valueKeyword params) layout).print.trim⟩] := rfl
  rw [resolve, published, hs, collect_lone config layout hd]
  rfl

/-- What a run leaves of an import of one name that has a sheet for itself. -/
theorem resolve_lone_import {path source token : Text} {a : Allocator}
    (hd : Definition.read params = .ok (.imports path [⟨source, name⟩]))
    (ha : Allocator.allocate { stem := config.stem } name = (token, a)) :
    (resolve config [] { nodes := [.leaf (.atRule valueKeyword params) layout] }).1 =
      { nodes := [(Node.rule (importSelector path) [.declaration token source]).withBefore layout.before,
          .rule exportSelector [.declaration name token]] } := by
  generalize hsheet : ({ nodes := [.leaf (.atRule valueKeyword params) layout] } : Stylesheet) = sheet
  have hs : statementsIn sheet.nodes =
      [⟨[0], params, (Node.leaf (.atRule valueKeyword params) layout).print.trim⟩] := by
    rw [← hsheet]
    rfl
  have hi : Imports.ofNodes config.stem sheet.nodes = { allocator := { stem := config.stem } } := by
    rw [← hsheet]
    rfl
  have hc : collect config sheet =
      Progress.define { imports := { allocator := a, blocks := [⟨path, [⟨token, source⟩], none, 0⟩] } }
        ⟨[0], params, (Node.leaf (.atRule valueKeyword params) layout).print.trim⟩
        ⟨name, token, .imported path⟩ := by
    rw [collect_singleton config hs, Progress.process, hd, Progress.start, hi]
    simp only [List.foldl_cons, List.foldl_nil, Progress.importName, Imports.register, ha]
    rfl
  have hw : rewriteOf config [] sheet =
      [(Node.rule (importSelector path) [.declaration token source]).withBefore layout.before,
        .rule exportSelector [.declaration name token]] := by
    rw [rewriteOf, published, hs, hc, ← hsheet]
    rfl
  have hx : isExchangeSelector (importSelector path) := by
    rw [isExchangeSelector, importPath?_importSelector, Option.isSome_some, Bool.or_true]
  have hr : (resolve config [] sheet).1 =
      { sheet with nodes := (replacementOf config [] sheet).apply (rewriteOf config [] sheet) } := rfl
  have hblock : ((Node.rule (importSelector path) [.declaration token source]).withBefore
      layout.before).selector?.any isExchangeSelector := hx
  rw [hr, hw, Replacement.apply_eq_map, List.map_cons, List.map_singleton,
    Replacement.node_of_exchange _ hblock, Replacement.node_of_exchange _ rfl, ite_self, ite_self, ← hsheet]

end

/-! ### Results that are no style sheets -/

/-- Whether a run leaves a text that is no style sheet. -/
def LeavesFault (config : Config) (input : List Message) (source : Text) : Prop :=
  ∃ p, resolveText config input source = .ok p ∧ ∃ fault, parse p.css = .error fault

theorem leavesFault_of_resolve {config : Config} {input : List Message} {source css : Text}
    {sheet result : Stylesheet} (hs : parse source = .ok sheet)
    (hr : (resolve config input sheet).1 = result) (hp : result.print = css)
    (hf : ∃ fault, parse css = .error fault) : LeavesFault config input source := by
  have ht := resolveText_of_parse config input hs
  rw [hr, hp] at ht
  exact ⟨_, ht, hf⟩

/-- A text that begins with a statement in which a string or a comment is never closed is no style
sheet. -/
theorem exists_fault_of_openFault {s : Text} {fault : Fault} (hs : StatementStart s)
    (hn : (Reading.split {} s).2 = []) (hf : openFault? s = some fault) :
    ∃ fault, parse s = .error fault := by
  have ha := Reading.split_append {} s
  rw [hn, List.append_nil] at ha
  have hc : cutStatement s = .error fault := by
    have hsplit : Reading.split {} s = (s, []) := Prod.ext ha hn
    rw [cutStatement, hsplit]
    simp only [hf]
  have hb : ([] : Text).all isFiller := rfl
  have hr := nextSegment_of_start hb hs
  rw [List.nil_append, readStatement, hc] at hr
  rw [parse, segments_of_broken hr]
  exact ⟨_, rfl⟩

end StyleValues
