import StyleValues.Proofs.Resolution.Expansion
import StyleValues.Proofs.Resolution.Fitting
import StyleValues.Proofs.Substitution.Wordlike

/-!
# Runs on plain definitions

The names of a sheet can be plain identifiers and its values texts that can
stand for words, and that can be seen from the statements as they are written.
By the order of the definitions all that such a run binds and publishes is of
this kind. So every text fits the place that it is written to, in all rules and
at-rules of the sheet.
-/

set_option autoImplicit false

namespace StyleValues

open Text

/-- Whether a definition has plain names, and a value or a path that can be written elsewhere. -/
def Definition.Plain : Definition → Prop
  | .value name text => Identifier name ∧ Wordlike text
  | .imports path names => ('\'' ∉ path ∨ QuotedBody '"' path) ∧
      ∀ n ∈ names, (∀ c ∈ n.source, isNameChar c) ∧ ∀ c ∈ n.name, isNameChar c

/-- What is asked of a configuration, of messages and of a sheet as it was read. -/
structure PlainRun (config : Config) (input : List Message) (sheet : Stylesheet) : Prop where
  stem : ∀ c ∈ config.stem, isNameChar c
  definitions : ∀ s ∈ statementsIn sheet.nodes, ∀ d, Definition.read s.params = .ok d → d.Plain
  identifiers : ∀ name identifier, Message.scopedName name identifier ∈ input →
    ∀ c ∈ identifier, isNameChar c
  /-- The import and export blocks of the sheet. -/
  blocks : ∀ n ∈ sheet.nodes, n.selector?.any isExchangeSelector → n.Extensible

/-! ### What is bound -/

structure Defined.Plain (d : Defined) : Prop where
  name : Identifier d.name
  text : Wordlike d.text

structure Binding.Plain (b : Binding) : Prop where
  name : Identifier b.name
  value : Wordlike b.value

structure ImportUse.Plain (u : ImportUse) : Prop where
  path : SelfContained (importSelector u.path)
  source : Identifier u.source
  name : Identifier u.name

section
variable {s : Statement} {a : Allocator}

theorem plain_uses (h : ∀ d, Definition.read s.params = .ok d → d.Plain) : ∀ u ∈ s.uses, u.Plain := by
  rw [Statement.uses]
  cases hr : Definition.read s.params with
  | error e => exact List.forall_mem_nil _
  | ok definition =>
    cases definition with
    | value name value => exact List.forall_mem_nil _
    | imports path names =>
      obtain ⟨hp, hn⟩ := h _ hr
      obtain ⟨quote, -, hq⟩ := quotedBody_of_read hr
      refine List.forall_mem_map.mpr fun n hm => ?_
      obtain ⟨hsource, hname⟩ := nameWords_of_read hr n hm
      exact ⟨selfContained_importSelector (quotedBody_pathQuote hq hp), ⟨hsource.ne_nil, (hn n hm).1⟩,
        hname.ne_nil, (hn n hm).2⟩

theorem plain_allot {us : List ImportUse} (ha : ∀ c ∈ a.stem, isNameChar c) (hu : ∀ u ∈ us, u.Plain) :
    ∀ p ∈ allot a us, p.1.Plain ∧ Identifier p.2 := by
  intro p hp
  have hm : p.1 ∈ us := by
    rw [← map_fst_allot a us]
    exact List.mem_map_of_mem hp
  have he := identifiers_of_allot ha fun u hm => ⟨(hu u hm).source, (hu u hm).name.2⟩
  exact ⟨hu _ hm, (List.forall_mem_map.mp he p hp).1⟩

theorem plain_definitions (ha : ∀ c ∈ a.stem, isNameChar c)
    (h : ∀ d, Definition.read s.params = .ok d → d.Plain) : ∀ d ∈ s.definitions a, d.Plain := by
  rw [Statement.definitions]
  cases hr : Definition.read s.params with
  | error e => exact List.forall_mem_nil _
  | ok definition =>
    cases definition with
    | value name value =>
      obtain ⟨hn, hv⟩ := h _ hr
      exact List.forall_mem_singleton.mpr ⟨hn, hv⟩
    | imports path names =>
      refine List.forall_mem_map.mpr fun p hp => ?_
      obtain ⟨hu, hi⟩ := plain_allot ha (plain_uses h) p hp
      exact ⟨hu.name, hi.wordlike⟩

theorem stem_after (a : Allocator) (us : List ImportUse) : (a.after us).stem = a.stem := by
  induction us generalizing a with
  | nil => rfl
  | cons u us ih => exact ih _

theorem plain_definitionsFrom (ha : ∀ c ∈ a.stem, isNameChar c) {statements : List Statement}
    (h : ∀ s ∈ statements, ∀ d, Definition.read s.params = .ok d → d.Plain) :
    ∀ d ∈ definitionsFrom a statements, d.Plain := by
  induction statements generalizing a with
  | nil => exact List.forall_mem_nil _
  | cons s rest ih =>
    obtain ⟨hs, hr⟩ := List.forall_mem_cons.mp h
    rw [definitionsFrom, List.forall_mem_append]
    exact ⟨plain_definitions ha hs, ih (by rwa [stem_after]) hr⟩

/-- Values of plain definitions are resolved to values that can stand for words. -/
theorem plain_meaning {ds : List Defined} (h : ∀ d ∈ ds, d.Plain) {name : Text} {b : Binding}
    (hb : meaning? ds name = some b) : b.Plain := by
  induction ds generalizing name b with
  | nil => cases hb
  | cons d ds ih =>
    obtain ⟨hd, hr⟩ := List.forall_mem_cons.mp h
    rw [meaning?] at hb
    split at hb
    · cases hb
      refine ⟨hd.name, ?_⟩
      rw [Defined.binding]
      cases d.origin with
      | imported path => exact hd.text
      | document =>
        refine hd.text.substitute fun t value ht => ?_
        obtain ⟨c, hc, rfl⟩ := Option.map_eq_some_iff.mp ht
        exact (ih hr hc).value
    · exact ih hr hb

end

/-! ### What texts become -/

namespace Replacement

structure Plain (r : Replacement) : Prop where
  bindings : ∀ b ∈ r.bindings.entries, b.Plain
  identifiers : r.redirects.AreNames
  targets : ∀ e ∈ r.redirects, Wordlike e.2

namespace Plain

variable {r : Replacement} (h : r.Plain) {isTarget : Bool} {s : Text}
include h

theorem areTokens : r.redirects.AreTokens := fun e he c hc =>
  isTokenChar_of_isNameChar (h.identifiers e he c hc)

theorem wordlike_text (hs : Wordlike s) : Wordlike (r.text isTarget s) := by
  refine Wordlike.redirect ?_ h.identifiers h.targets
  split
  · refine hs.substitute fun t value ht => ?_
    obtain ⟨b, hb, rfl⟩ := Option.map_eq_some_iff.mp ht
    exact (h.bindings b (List.mem_of_find?_eq_some hb)).value
  · exact hs

theorem wordlike_runs : ∀ w ∈ runs isTokenChar s, Wordlike (r.text isTarget w) := by
  intro w hw
  obtain ⟨hne, ht⟩ := mem_runs hw
  exact h.wordlike_text (wordlike_of_tokens hne ht)

theorem takes {reading : Reading} (hr : reading.Quoting) : reading.Takes (r.text isTarget) [] s := by
  refine Reading.takes_of_seamless hr fun w hw => ?_
  rw [tokensIn_eq_runs] at hw
  exact ⟨(h.wordlike_runs w hw).seamless, (h.wordlike_runs w hw).trimmed⟩

variable (isTarget s) in
theorem head?_text_cases :
    (∃ w ∈ runs isTokenChar s, w.head? = s.head? ∧
      (r.text isTarget s).head? = (r.text isTarget w).head?) ∨
        (r.text isTarget s).head? = s.head? := by
  rw [r.text_eq_mapRuns h.areTokens isTarget s]
  exact (head?_mapRuns (r.text_nil isTarget) fun w hw => (h.wordlike_runs w hw).seamless.ne_nil).imp_right
    And.right

/-- A text begins with a mark only if it began with it. -/
theorem head?_of_mark {mark : Char} (hm : mark ∈ leadMarks)
    (hs : (r.text isTarget s).head? = some mark) : s.head? = some mark := by
  rcases h.head?_text_cases isTarget s with ⟨w, hw, -, he⟩ | he
  · exact absurd hm ((h.wordlike_runs w hw).start mark (he.symm.trans hs))
  · exact he.symm.trans hs

/-- A character in front that is in no name stays there, as no bound name begins with it. -/
theorem head?_text {c : Char} (hc : ¬ isNameChar c) (hs : s.head? = some c) :
    (r.text isTarget s).head? = some c := by
  rcases h.head?_text_cases isTarget s with ⟨w, hw, hhead, he⟩ | he
  · obtain ⟨hne, ht⟩ := mem_runs hw
    rw [hs] at hhead
    have hv : r.bindings.value? w = none := by
      refine Bindings.value?_eq_none ?_
      rintro b hb rfl
      exact hc ((h.bindings b hb).name.2 c (List.mem_of_head? hhead))
    have hkept : (if isTarget then r.bindings.resolve w else w) = w := by
      rw [Bindings.resolve, substitute_token hne ht, hv, Option.getD_none, ite_self]
    obtain ⟨rest, rfl⟩ := List.head?_eq_some_iff.mp hhead
    have hr : redirect r.redirects ([] ++ c :: rest) = _ :=
      redirect_append_cons hc (fun e he hm => hc (h.identifiers e he c hm)) [] rest
    rw [redirect_nil, List.nil_append, List.nil_append] at hr
    rw [he, text, hkept, hr, List.head?_cons]
  · exact he.trans hs

theorem selector_kept {selector : Text} (hat : ¬ ['@'] <+: selector)
    (hcomment : ¬ ['/', '*'] <+: selector) :
    ¬ ['@'] <+: r.text isTarget selector ∧ ¬ ['/', '*'] <+: r.text isTarget selector := by
  have hmark : ∀ {mark : Char} {s rest : Text}, mark ∈ leadMarks → mark :: rest = r.text isTarget s →
      ∃ tail, s = mark :: tail := by
    intro mark s rest hm ht
    exact List.head?_eq_some_iff.mp (h.head?_of_mark hm (by rw [← ht, List.head?_cons]))
  constructor
  · rintro ⟨rest, ht⟩
    obtain ⟨tail, rfl⟩ := hmark (by decide) ht
    exact hat (List.prefix_append ['@'] tail)
  · rintro ⟨rest, ht⟩
    obtain ⟨tail, rfl⟩ := hmark (by decide) ht
    have hcut := r.text_append_cons h.areTokens (c := '/') (by decide) isTarget [] tail
    rw [r.text_nil, List.nil_append, List.nil_append] at hcut
    rw [hcut] at ht
    obtain ⟨more, rfl⟩ := hmark (by decide) (List.cons.inj ht).2
    exact hcomment (List.prefix_append ['/', '*'] more)

theorem suitsParams {name params next : Text} {segment : Segment} {layout : Layout}
    (hb : Placed.ReadsBack ⟨segment, next⟩) (hs : segment.atRule? = some (name, params, layout)) :
    r.SuitsParams name params layout := by
  refine ⟨h.takes trivial, ?_⟩
  rcases afterName_or_of_readsBack hb hs with ha | hp
  · exact Or.inl ha
  · refine Or.inr fun c hc => ?_
    cases hd : params.head? with
    | none =>
      rw [List.head?_eq_none_iff.mp hd, r.text_nil] at hc
      cases hc
    | some d =>
      have hn := hp d hd
      rw [h.head?_text (by simp [hn]) hd] at hc
      cases hc
      exact hn

/-- In a sheet that was read every text can be replaced. -/
theorem suits {next : Text} {nodes : List Node} (hl : Legible next nodes) :
    ∀ n ∈ openNodes nodes, r.Suits n := by
  induction nodes using forestInduction generalizing next with
  | nil => exact List.forall_mem_nil _
  | leaf content layout rest ih =>
    obtain ⟨hb, hn⟩ := (legible_leaf ..).mp hl
    refine List.forall_mem_cons.mpr ⟨?_, ih hn⟩
    cases content with
    | atRule name params => exact h.suitsParams hb rfl
    | declaration property value => exact h.takes (Reading.Quoting.foldl (r := {}) trivial _)
    | comment text => trivial
  | block head children layout rest ihc ihr =>
    obtain ⟨hb, hc, hn⟩ := (legible_block ..).mp hl
    rw [openNodes, Node.openNodes]
    split
    · exact ihr hn
    · rw [List.cons_append, List.forall_mem_cons, List.forall_mem_append]
      refine ⟨?_, ihc hc, ihr hn⟩
      cases head with
      | atRule name params =>
        exact (h.suitsParams hb rfl : r.SuitsParams name params { layout with after := [] })
      | rule selector =>
        obtain ⟨hat, hcomment⟩ := lead_of_readsBack hb
        exact ⟨h.takes trivial, h.selector_kept hat hcomment⟩

end Plain

end Replacement

/-! ### All that is written -/

namespace PlainRun

variable {config : Config} {input : List Message} {sheet : Stylesheet}
  (h : PlainRun config input sheet)
include h

theorem uses : ∀ u ∈ usesIn sheet.nodes, u.Plain := by
  intro u hu
  obtain ⟨s, hs, hm⟩ := List.mem_flatMap.mp hu
  exact plain_uses (h.definitions s hs) u hm

theorem collected : ∀ b ∈ (collect config sheet).bindings.entries, b.Plain := by
  intro b hb
  have hm := Bindings.find?_of_mem hb
  rw [bindings_collect, find?_defineAll] at hm
  refine plain_meaning (fun d hd => ?_) hm
  exact plain_definitionsFrom h.stem h.definitions d (List.mem_reverse.mp hd)

theorem redirects : (redirectsOf (collect config sheet).bindings input).AreNames ∧
    ∀ e ∈ redirectsOf (collect config sheet).bindings input, Wordlike e.2 := by
  have he : ∀ e ∈ redirectsOf (collect config sheet).bindings input,
      (∀ c ∈ e.1, isNameChar c) ∧ Wordlike e.2 := by
    intro e he
    obtain ⟨m, hm, hr⟩ := List.mem_filterMap.mp he
    cases m with
    | boundName plugin name value => cases hr
    | scopedName name identifier =>
      obtain ⟨target, ht, rfl⟩ := Option.map_eq_some_iff.mp hr
      obtain ⟨b, hb, rfl⟩ := Option.map_eq_some_iff.mp ht
      exact ⟨h.identifiers name identifier hm, (h.collected b (List.mem_of_find?_eq_some hb)).value⟩
  exact ⟨fun e hm => (he e hm).1, fun e hm => (he e hm).2⟩

theorem replacement : (replacementOf config input sheet).Plain := by
  obtain ⟨hr, ht⟩ := h.redirects
  refine ⟨List.forall_mem_map.mpr fun b hb => ?_, hr, ht⟩
  obtain ⟨hn, hv⟩ := h.collected b hb
  exact ⟨hn, hv.redirect hr ht⟩

theorem extensible {i : Nat} {n : Node} (hn : sheet.nodes[i]? = some n)
    (hg : GetsEntries config input sheet i n) : n.Extensible := by
  refine h.blocks n (List.mem_of_getElem? hn) ?_
  rcases hg with ⟨hf, -⟩ | ⟨u, -, hf⟩
  · exact exchange_of_isExportBlock (isExportBlock_of_findExport? hn hf)
  · obtain ⟨m, hm, hp⟩ := importPath?_of_findImport? hf
    cases hm.symm.trans hn
    exact exchange_of_importPath? hp

/-- In a plain run every text fits its place. -/
theorem fitting (hl : Legible [] sheet.nodes) : Fitting config input sheet where
  exports b hb :=
    have hp := h.replacement.bindings b hb
    ⟨hp.name.propertyText, hp.value.plainValue, hp.value.seamless.ne_nil⟩
  imports a ha :=
    have hp := plain_allot h.stem h.uses a ha
    plainEntry_of_identifiers ⟨hp.2, hp.1.source⟩
  paths u hu := (h.uses u ((firstUses_sublist _).subset (List.mem_filter.mp hu).1)).path
  identifiers := h.replacement.areTokens
  texts := h.replacement.suits (hl.prune valueKeyword)
  blocks _ _ hn hg := h.extensible hn hg

end PlainRun

theorem plainRun_chainSheet : PlainRun {} [.scopedName ['b'] ['c']] chainSheet where
  stem := List.all_eq_true.mp rfl
  definitions := by
    have ha : Definition.Plain (.imports ['p'] [⟨['a'], ['a']⟩]) :=
      ⟨Or.inl (by decide), List.forall_mem_singleton.mpr
        ⟨List.forall_mem_singleton.mpr rfl, List.forall_mem_singleton.mpr rfl⟩⟩
    have hb : Definition.Plain (.value ['b'] "a x".toList) :=
      ⟨⟨List.cons_ne_nil _ _, List.forall_mem_singleton.mpr rfl⟩,
        wordlike_of_neutral (List.cons_ne_nil _ _) (.cons (by decide) (.cons (by decide)
          (.cons (by decide) (List.forall_mem_nil _)))) rfl (by decide)⟩
    rw [statementsIn_chainSheet, List.forall_mem_cons, List.forall_mem_singleton]
    simp only [read_chainSheet.1, read_chainSheet.2, Except.ok.injEq, forall_eq']
    exact ⟨ha, hb⟩
  identifiers := by
    intro name identifier hm
    obtain ⟨rfl, rfl⟩ := Message.scopedName.inj (List.mem_singleton.mp hm)
    exact List.forall_mem_singleton.mpr rfl
  blocks := by
    intro n hn hx
    rw [chainSheet, List.mem_cons, List.mem_cons, List.mem_singleton] at hn
    rcases hn with rfl | rfl | rfl <;> cases hx

end StyleValues
