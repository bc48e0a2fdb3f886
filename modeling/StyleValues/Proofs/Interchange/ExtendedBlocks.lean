import StyleValues.Proofs.Interchange.PlainEntries
import StyleValues.Proofs.Resolution.Arrangement
import StyleValues.Proofs.Sheet.Rewording

/-!
# Extended blocks read back

A block that got entries is read from its print as a block with all of them,
unless its last child was an at-rule without an end. Only declarations get a
semicolon before entries are added; such an at-rule runs on to the first
semicolon behind it. If there is none in the text that indents the new
entries, then it takes the first of them with it, and that entry is lost.
-/

set_option autoImplicit false

namespace StyleValues

open Text

/-- Whether entries can be put behind these nodes: the last one has an end or gets one, or there is
one in the text between. -/
def TakesEntries (indent : Option Text) (nodes : List Node) : Prop :=
  (∀ c ∈ nodes.getLast?, c.ends ∨ c.declaration?.isSome) ∨
    ';' ∈ indent.getD Layout.declaration.before

def Node.TakesEntries (n : Node) : Prop :=
  StyleValues.TakesEntries (lastIndent? (n.children?.getD [])) (n.children?.getD [])

/-- Whether a printed node is read as one rule with the same entries. -/
def Node.Rereads (n : Node) : Prop :=
  ∃ m, parse n.print = .ok { nodes := [m] } ∧ m.selector?.isSome ∧ m.entries = n.entries

theorem isBlank_of_isFiller {c : Char} (h : isFiller c) (hc : c ≠ ';') : isBlank c := by
  rw [isFiller, Bool.or_eq_true, beq_iff_eq] at h
  exact h.resolve_right hc

theorem print_newEntry (indent : Option Text) (name value : Text) :
    (newEntry indent name value).print =
      indent.getD Layout.declaration.before ++ (name ++ ':' :: ' ' :: (value ++ [';'])) := by
  simp [newEntry, Node.print, Leaf.print, Layout.declaration, Layout.terminator]

/-! ### Nodes that are read back in a block -/

section
variable {nodes : List Node}

theorem legible_terminated (h : Legible ['}'] nodes) : Legible ['}'] (nodes.map Node.terminated) := by
  induction nodes with
  | nil => exact h
  | cons n rest ih =>
    obtain ⟨hn, hr⟩ := legible_cons.mp h
    refine legible_cons.mpr ⟨?_, ih hr⟩
    rcases n with ⟨_ | _ | _, layout⟩ | ⟨head, children, layout⟩
    · exact hn
    · exact legible_leaf_iff.mpr (readsBack_terminated (Or.inr rfl) (legible_leaf_iff.mp hn) _)
    · exact hn
    · exact hn

theorem legible_withValues {value? : Text → Option Text}
    (hv : ∀ property value, value? property = some value → PlainEntry (property, value))
    (h : Legible ['}'] nodes) : Legible ['}'] (withValues value? nodes) := by
  induction nodes using declarationInduction generalizing value? with
  | nil => exact h
  | declaration property value layout rest ih =>
    obtain ⟨hn, hr⟩ := legible_cons.mp h
    refine legible_cons.mpr ⟨?_, ih (fun p v hp => ?_) hr⟩
    · cases hx : value? property with
      | none => exact hn
      | some value' =>
        have he := hv property value' hx
        exact legible_leaf_iff.mpr
          (readsBack_withValue (legible_leaf_iff.mp hn) he.name.closed he.value he.value_ne_nil)
    · split at hp
      · cases hp
      · exact hv p v hp
  | other n rest hn ih =>
    obtain ⟨hl, hr⟩ := legible_cons.mp h
    rw [withValues_other hn]
    exact legible_cons.mpr ⟨hl, ih hv hr⟩

theorem legible_newEntries {next : Text} {indent : Option Text} {entries : List (Text × Text)}
    (hi : (indent.getD Layout.declaration.before).all isFiller) (he : ∀ e ∈ entries, PlainEntry e) :
    Legible next (entries.map fun e => newEntry indent e.1 e.2) := by
  induction entries with
  | nil => exact List.forall_mem_nil _
  | cons e entries ih =>
    obtain ⟨he, hr⟩ := List.forall_mem_cons.mp he
    exact legible_cons.mpr ⟨legible_leaf_iff.mpr (readsBack_newEntry indent hi he next), ih hr⟩

theorem filler_lastIndent? (h : Legible ['}'] nodes) :
    ((lastIndent? nodes).getD Layout.declaration.before).all isFiller := by
  cases hl : lastIndent? nodes with
  | none => rfl
  | some before =>
    obtain ⟨n, hn, hb⟩ := List.mem_filterMap.mp (List.mem_of_getLast? hl)
    split at hb <;> cases hb
    exact before_of_nextSegment (legible_leaf_iff.mp (h.of_mem hn))

section
variable {c : Node} (h : Legible ['}'] [c]) (he : c.ends = false)
include h he

/-- White space behind a child without an end does not change what it declares. -/
theorem exists_spaced_node {space : Text} (hs : Blank space) : ∃ m : Node,
    m.declaration? = c.declaration? ∧ m.Arranged ∧ Legible ['}'] [m] ∧ m.print = c.print ++ space := by
  rcases c with ⟨⟨name, params⟩ | ⟨property, value⟩ | _, layout⟩ | ⟨head, children, layout⟩
  · obtain ⟨name', params', layout', -, hp, hr⟩ := exists_atRule_behind (Or.inr rfl)
      (legible_leaf_iff.mp h) he (neutral_of_blanks hs) false
    refine ⟨.leaf (.atRule name' params') layout', rfl, trivial,
      legible_leaf_iff.mpr (hr _ (Or.inr rfl)), hp.trans ?_⟩
    rw [if_neg Bool.false_ne_true, List.append_nil]
    rfl
  · obtain ⟨layout', hp, hr⟩ := exists_spaced (Or.inr rfl) (legible_leaf_iff.mp h) hs he
    exact ⟨.leaf (.declaration property value) layout', rfl, trivial,
      legible_leaf_iff.mpr (hr _ rfl), hp⟩
  · cases he
  · cases he

/-- An at-rule without an end takes what follows it up to a semicolon. -/
theorem exists_swallowing (hd : c.declaration? = none) {t : Text} (ht : Neutral t) : ∃ m : Node,
    m.declaration? = none ∧ m.ends ∧ m.Arranged ∧ Legible ['}'] [m] ∧
      m.print = c.print ++ (t ++ [';']) := by
  rcases c with ⟨⟨name, params⟩ | ⟨property, value⟩ | _, layout⟩ | ⟨head, children, layout⟩
  · obtain ⟨name', params', layout', hl, hp, hr⟩ := exists_atRule_behind (Or.inr rfl)
      (legible_leaf_iff.mp h) he ht true
    exact ⟨.leaf (.atRule name' params') layout', rfl, hl, trivial,
      legible_leaf_iff.mpr (hr _ (Or.inl rfl)), hp⟩
  · cases hd
  · cases he
  · cases he

end

end

/-! ### The block with the entries behind its children -/

def OpensRule (selector : Text) (layout : Layout) : Prop :=
  Placed.ReadsBack ⟨.opening (.rule selector) { layout with after := [] }, []⟩

def newEntries (indent : Option Text) (entries : List (Text × Text)) : List Node :=
  entries.map fun e => newEntry indent e.1 e.2

section
variable {selector : Text} {children : List Node} {layout : Layout}

theorem OpensRule.extended (hs : OpensRule selector layout) (ns : List Node) :
    OpensRule selector (layout.extended ns) := by
  have hx : ({ layout.extended ns with after := [] } : Layout) = { layout with after := [] } := by
    rw [Layout.extended]
    split <;> rfl
  rw [OpensRule, hx]
  exact hs

theorem parse_rule (hs : OpensRule selector layout) (hl : Legible ['}'] children)
    (ha : Arranged layout.after children) :
    parse (Node.block (.rule selector) children layout).print =
      .ok { nodes := [.block (.rule selector) children layout] } := by
  refine parse_eq_ok_iff_legible.mpr ⟨?_, ?_, Or.inl rfl, ha, rfl⟩
  · rw [Stylesheet.print, printAll, printAll, List.append_nil, List.append_nil]
  · exact (legible_block [] [] layout _ children).mpr ⟨hs, hl, List.forall_mem_nil _⟩

theorem rereads_iff {n : Node} (h : parse n.print =
    .ok { nodes := [.block (.rule selector) children layout] }) :
    n.Rereads ↔ declarationsIn children = n.entries := by
  constructor
  · rintro ⟨m, hm, -, he⟩
    cases h.symm.trans hm
    exact he
  · exact fun he => ⟨_, h, rfl, he⟩

theorem rereads_of_legible (hs : OpensRule selector layout) (hl : Legible ['}'] children)
    (ha : Arranged layout.after children) : (Node.block (.rule selector) children layout).Rereads :=
  (rereads_iff (parse_rule hs hl ha)).mpr rfl

end

/-! ### Behind a child without an end -/

section
variable {selector : Text} {front : List Node} {c : Node} {layout : Layout}
  (hs : OpensRule selector layout) (hl : Legible ['}'] (front ++ [c]))
  (hf : ∀ n ∈ front, n.ends ∧ n.Arranged) (hc : c.ends = false)
include hs hl hf hc

theorem rereads_spaced :
    (Node.block (.rule selector) (front ++ [c]) { layout with after := ['\n'] }).Rereads := by
  obtain ⟨hlf, hlc⟩ := legible_append.mp hl
  obtain ⟨m, hd, harr, hlm, hpm⟩ := exists_spaced_node hlc hc
    (List.forall_mem_singleton.mpr rfl : Blank ['\n'])
  have hprint : (Node.block (.rule selector) (front ++ [c]) { layout with after := ['\n'] }).print =
      (Node.block (.rule selector) (front ++ [m]) { layout with after := [] }).print := by
    simp [Node.print, printAll_append, printAll, hpm, Nesting.head_print_after]
  have hp : parse (Node.block (.rule selector) (front ++ [m]) { layout with after := [] }).print =
      .ok { nodes := [.block (.rule selector) (front ++ [m]) { layout with after := [] }] } :=
    parse_rule hs (legible_append.mpr ⟨hlf, hlm⟩) (arranged_append hf ⟨Or.inr ⟨rfl, rfl⟩, harr, rfl⟩)
  rw [← hprint] at hp
  refine (rereads_iff hp).mpr ?_
  have hlast : declarationsIn [m] = declarationsIn [c] := by
    rw [declarationsIn, declarationsIn, List.filterMap_cons, List.filterMap_cons, hd]
  rw [declarationsIn_append, hlast, ← declarationsIn_append]
  rfl

variable (hd : c.declaration? = none)
include hd

theorem parse_swallowing {t : Text} (ht : Neutral t) {behind rest : List Node}
    (hp : printAll behind = t ++ ';' :: printAll rest) (hr : Legible ['}'] rest)
    (ha : Arranged layout.after rest) :
    ∃ m : Node, m.declaration? = none ∧
      parse (Node.block (.rule selector) (front ++ c :: behind) layout).print =
        .ok { nodes := [.block (.rule selector) (front ++ m :: rest) layout] } := by
  obtain ⟨hlf, hlc⟩ := legible_append.mp hl
  obtain ⟨m, hm, hends, harr, hlm, hpm⟩ := exists_swallowing hlc hc hd ht
  have hprint : (Node.block (.rule selector) (front ++ c :: behind) layout).print =
      (Node.block (.rule selector) (front ++ m :: rest) layout).print := by
    simp [Node.print, printAll_append, printAll, hp, hpm]
  refine ⟨m, hm, ?_⟩
  rw [hprint]
  exact parse_rule hs (legible_append.mpr ⟨hlf, legible_cons.mpr ⟨hlm, hr⟩⟩)
    (arranged_append hf ⟨Or.inl hends, harr, ha⟩)

/-- So the block is read back if and only if its entries are those that the at-rule has left. -/
theorem rereads_swallowing {t : Text} (ht : Neutral t) {behind rest : List Node}
    (hp : printAll behind = t ++ ';' :: printAll rest) (hr : Legible ['}'] rest)
    (ha : Arranged layout.after rest) :
    (Node.block (.rule selector) (front ++ c :: behind) layout).Rereads ↔
      declarationsIn rest = declarationsIn behind := by
  obtain ⟨m, hm, hparse⟩ := parse_swallowing hs hl hf hc hd ht hp hr ha
  have hentries : (Node.block (.rule selector) (front ++ c :: behind) layout).entries =
      declarationsIn front ++ declarationsIn behind := by
    have hblock := declarationsIn_append front (c :: behind)
    rw [declarationsIn_other hd] at hblock
    exact hblock
  rw [rereads_iff hparse, hentries, declarationsIn_append, declarationsIn_other hm,
    List.append_cancel_left_eq]

variable {indent : Option Text} {e : Text × Text} {entries : List (Text × Text)}
  (hi : (indent.getD Layout.declaration.before).all isFiller)
  (he : ∀ e' ∈ e :: entries, Identifier e'.1 ∧ Identifier e'.2) (ha : layout.after.all isFiller)
include hi he ha

theorem rereads_of_semicolon (hm : ';' ∈ indent.getD Layout.declaration.before) :
    (Node.block (.rule selector) (front ++ c :: newEntries indent (e :: entries)) layout).Rereads := by
  obtain ⟨w, r, hw, hnw⟩ := List.eq_append_cons_of_mem hm
  obtain ⟨hfirst, hrest⟩ := List.forall_mem_cons.mp he
  rw [hw, List.all_append, List.all_cons, Bool.and_eq_true, Bool.and_eq_true] at hi
  have ht : Neutral w := neutral_of_blanks fun d hd =>
    isBlank_of_isFiller (List.all_eq_true.mp hi.1 d hd) fun h => hnw (h ▸ hd)
  have hprint : printAll (newEntries indent (e :: entries)) =
      w ++ ';' :: printAll (newEntries (some r) [e] ++ newEntries indent entries) := by
    simp [newEntries, printAll, print_newEntry, hw]
  have hfiller : (indent.getD Layout.declaration.before).all isFiller := by
    rw [hw, List.all_append, List.all_cons, hi.1, hi.2.1, hi.2.2]
    rfl
  have hlr : Legible ['}'] (newEntries (some r) [e] ++ newEntries indent entries) :=
    legible_append.mpr ⟨legible_newEntries hi.2.2 (List.forall_mem_singleton.mpr (plainEntry_of_identifiers hfirst)),
      legible_newEntries hfiller (plainEntries_of_identifiers hrest)⟩
  refine (rereads_swallowing hs hl hf hc hd ht hprint hlr
    ⟨Or.inl rfl, trivial, arranged_newEntries ha indent entries⟩).mpr ?_
  rw [declarationsIn_append, newEntries, newEntries, newEntries, declarationsIn_newEntries,
    declarationsIn_newEntries, declarationsIn_newEntries]
  rfl

theorem not_rereads_of_blank (hm : ';' ∉ indent.getD Layout.declaration.before) :
    ¬ (Node.block (.rule selector) (front ++ c :: newEntries indent (e :: entries)) layout).Rereads := by
  obtain ⟨⟨hn, hv⟩, hrest⟩ := List.forall_mem_cons.mp he
  have hindent : Neutral (indent.getD Layout.declaration.before) := neutral_of_blanks fun d hd =>
    isBlank_of_isFiller (List.all_eq_true.mp hi d hd) fun h => hm (h ▸ hd)
  have ht : Neutral (indent.getD Layout.declaration.before ++ (e.1 ++ ':' :: ' ' :: e.2)) :=
    hindent.append (.append (neutral_of_names hn.2)
      (.cons (by decide) (.cons (by decide) (neutral_of_names hv.2))))
  have hprint : printAll (newEntries indent (e :: entries)) =
      (indent.getD Layout.declaration.before ++ (e.1 ++ ':' :: ' ' :: e.2)) ++
        ';' :: printAll (newEntries indent entries) := by
    simp [newEntries, printAll, print_newEntry]
  rw [rereads_swallowing hs hl hf hc hd ht hprint (legible_newEntries hi (plainEntries_of_identifiers hrest))
    (arranged_newEntries ha indent entries), newEntries, newEntries, declarationsIn_newEntries,
    declarationsIn_newEntries]
  exact fun h => List.cons_ne_self e entries h.symm

end

/-! ### All blocks -/

section
variable {selector : Text} {children : List Node} {layout : Layout} {indent : Option Text}
  {entries : List (Text × Text)} (hs : OpensRule selector layout) (hl : Legible ['}'] children)
  (ha : Arranged layout.after children) (hi : (indent.getD Layout.declaration.before).all isFiller)
  (he : ∀ e ∈ entries, Identifier e.1 ∧ Identifier e.2)
include hs hl ha hi he

theorem rereads_of_ends (hne : entries ≠ [])
    (hx : ∀ n ∈ children, n.ends ∨ n.declaration?.isSome) :
    (extendedRule selector (children ++ newEntries indent entries) layout).Rereads := by
  have hnew : newEntries indent entries ≠ [] := List.map_eq_nil_iff.not.mpr hne
  have hends : ∀ n ∈ children.map Node.terminated, n.ends ∧ n.Arranged := by
    refine List.forall_mem_map.mpr fun n hn => ?_
    exact ⟨ends_terminated (hx n hn), arranged_terminated (ha.of_mem hn)⟩
  rw [extendedRule, terminateAll_append _ hnew, newEntries, terminateAll_newEntries]
  exact rereads_of_legible (hs.extended _)
    (legible_append.mpr ⟨legible_terminated hl, legible_newEntries hi (plainEntries_of_identifiers he)⟩)
    (arranged_append hends (arranged_newEntries (filler_extended _ ha.filler) indent entries))

/-- Adding entries to a block is read back if and only if its children take them. -/
theorem rereads_extendedRule :
    (extendedRule selector (children ++ newEntries indent entries) layout).Rereads ↔
      entries = [] ∨ TakesEntries indent children := by
  rcases ha.ends_or with hall | ⟨front, c, rfl, hf, hc, hafter⟩
  · refine iff_of_true ?_ (Or.inr (Or.inl fun c hc => Or.inl (hall c (List.mem_of_getLast? hc))))
    cases entries with
    | nil =>
      have hself : terminateAll children = children :=
        terminateAll_eq_self fun n hn => terminated_of_ends (hall n hn)
      rw [newEntries, List.map_nil, List.append_nil, extendedRule, hself]
      exact rereads_of_legible (hs.extended _) hl
        (arranged_of_ends (filler_extended _ ha.filler) fun n hn => ⟨hall n hn, ha.of_mem hn⟩)
    | cons e entries =>
      exact rereads_of_ends hs hl ha hi he (List.cons_ne_nil _ _) fun n hn => Or.inl (hall n hn)
  -- The last child has no end, and what becomes of it depends on what it is.
  have hf' : ∀ n ∈ front, n.ends ∧ n.Arranged :=
    fun n hn => ⟨hf n hn, ha.of_mem (List.mem_append_left _ hn)⟩
  cases entries with
  | nil =>
    have hself : terminateAll (front ++ [c]) = front ++ [c] := by
      rw [terminateAll_append front (List.cons_ne_nil c []), map_terminated_of_ends hf]
      rfl
    have hline : layout.extended (front ++ [c]) = { layout with after := ['\n'] } := by
      rw [Layout.extended, hafter]
      simp
    rw [newEntries, List.map_nil, List.append_nil, extendedRule, hself, hline]
    exact iff_of_true (rereads_spaced hs hl hf' hc) (Or.inl rfl)
  | cons e entries =>
    cases hd : c.declaration? with
    | some entry =>
      have hsome : c.declaration?.isSome := by rw [hd]; rfl
      refine iff_of_true (rereads_of_ends hs hl ha hi he (List.cons_ne_nil _ _) fun n hn => ?_)
        (Or.inr (Or.inl fun n hn => ?_))
      · rcases List.mem_append.mp hn with hn | hn
        · exact Or.inl (hf n hn)
        · exact Or.inr (List.mem_singleton.mp hn ▸ hsome)
      · rw [List.getLast?_concat, Option.mem_some_iff] at hn
        exact Or.inr (hn ▸ hsome)
    | none =>
      have hnew : newEntries indent (e :: entries) ≠ [] := List.cons_ne_nil _ _
      have hlast : TakesEntries indent (front ++ [c]) ↔ ';' ∈ indent.getD Layout.declaration.before := by
        rw [TakesEntries, List.getLast?_concat]
        simp [hc, hd]
      have hfx := fun ns => filler_extended ns ha.filler
      rw [extendedRule, terminateAll_append _ hnew, List.map_append, map_terminated_of_ends hf,
        List.map_singleton, terminated_of_not_declaration hd, newEntries, terminateAll_newEntries,
        List.append_assoc, List.singleton_append, hlast, ← newEntries]
      by_cases hm : ';' ∈ indent.getD Layout.declaration.before
      · exact iff_of_true
          (rereads_of_semicolon (hs.extended _) hl hf' hc hd hi he (hfx _) hm) (Or.inr hm)
      · exact iff_of_false (not_rereads_of_blank (hs.extended _) hl hf' hc hd hi he (hfx _) hm)
          (not_or.mpr ⟨List.cons_ne_nil _ _, hm⟩)

end

/-! ### Blocks of a sheet -/

theorem takesEntries_withValues (indent : Option Text) (value? : Text → Option Text)
    (nodes : List Node) : TakesEntries indent (withValues value? nodes) ↔ TakesEntries indent nodes := by
  have hlast : ∀ ns : List Node, (∀ c ∈ ns.getLast?, c.ends ∨ c.declaration?.isSome) ↔
      ∀ b ∈ (ns.map fun c => c.ends || c.declaration?.isSome).getLast?, b := by
    intro ns
    rw [List.getLast?_map]
    cases ns.getLast? <;> simp
  rw [TakesEntries, TakesEntries, hlast, hlast, map_withValues fun _ _ _ _ => rfl]

/-- A block of a sheet that got entries is read from its print as a rule with all its entries if and
only if there were none to add or its children take them. -/
theorem rereads_extended {s : Text} {sheet : Stylesheet} (h : parse s = .ok sheet) {n : Node}
    (hn : n ∈ sheet.nodes) (hr : n.selector?.isSome) :
    (∀ bs : Bindings, (∀ b ∈ bs.entries, Identifier b.name ∧ Identifier b.value) →
      ((n.mergeBindings bs).Rereads ↔
        undeclared (n.children?.getD []) (bs.entries.map Binding.entry) = [] ∨ n.TakesEntries)) ∧
    ∀ entries : List (Text × Text), (∀ e ∈ entries, Identifier e.1 ∧ Identifier e.2) →
      ((n.addEntries entries).Rereads ↔ entries = [] ∨ n.TakesEntries) := by
  rcases n with ⟨content, layout⟩ | ⟨_ | selector, children, layout⟩
  · cases hr
  · cases hr
  obtain ⟨-, hl, ha⟩ := parse_eq_ok_iff_legible.mp h
  obtain ⟨hs, hlc, -⟩ := (legible_block _ _ _ _ _).mp (hl.of_mem hn)
  have hac : Arranged layout.after children := ha.of_mem hn
  have hi := filler_lastIndent? hlc
  refine ⟨fun bs hb => ?_, fun entries he => rereads_extendedRule hs hlc hac hi he⟩
  have he : ∀ e ∈ bs.entries.map Binding.entry, Identifier e.1 ∧ Identifier e.2 :=
    List.forall_mem_map.mpr hb
  have hlw : Legible ['}'] (withValues (fun p => (bs.entries.map Binding.entry).lookup p) children) :=
    legible_withValues (fun p v hv => plainEntries_of_identifiers he (p, v) (mem_of_lookup hv)) hlc
  have haw : Arranged layout.after
      (withValues (fun p => (bs.entries.map Binding.entry).lookup p) children) :=
    arranged_withValues hac
  rw [Node.mergeBindings, mergeAll_eq _ _ bs.names_nodup]
  simp only
  split
  · next hu =>
    have hnew : ∀ e ∈ undeclared children (bs.entries.map Binding.entry),
        Identifier e.1 ∧ Identifier e.2 := fun e hm => he e (List.filter_sublist.mem hm)
    have hx := rereads_extendedRule hs hlw haw hi hnew
    rw [takesEntries_withValues] at hx
    exact hx
  · next hu =>
    rw [Bool.not_eq_true', Bool.not_eq_false, List.isEmpty_iff] at hu
    rw [mergedWith, hu, List.map_nil, List.append_nil]
    exact iff_of_true (rereads_of_legible hs hlw haw) (Or.inl hu)

def spacedBlock : Node :=
  .block (.rule exportSelector)
    [.leaf (.declaration ['c'] ['d']) { between := [':'], semicolon := true },
      .leaf (.declaration ['e'] ['f']) { before := [';'], between := [':'], semicolon := true },
      .leaf (.atRule ['x'] ['y']) { afterName := [' '] }] {}

def plainBinding : Bindings := { entries := [⟨['a'], ['b'], .document⟩], names_nodup := by simp }

theorem rereads_extended_spaced :
    parse ":export\x7bc:d;;e:f;@x y\x7d".toList = .ok { nodes := [spacedBlock] } ∧
      (spacedBlock.mergeBindings plainBinding).Rereads ∧
      (spacedBlock.addEntries [(['a'], ['b'])]).Rereads ∧
      (spacedBlock.addEntries [(['a'], ['b'])]).print =
        ":export\x7bc:d;;e:f;@x y;a: b;\n\x7d".toList := by
  have hp : parse ":export\x7bc:d;;e:f;@x y\x7d".toList = .ok { nodes := [spacedBlock] } := by cbv
  have ht : spacedBlock.TakesEntries := Or.inr (by decide)
  have hi : Identifier ['a'] ∧ Identifier ['b'] :=
    ⟨⟨by decide, List.forall_mem_singleton.mpr rfl⟩, by decide, List.forall_mem_singleton.mpr rfl⟩
  obtain ⟨hm, ha⟩ := rereads_extended hp (List.mem_singleton.mpr rfl) rfl
  exact ⟨hp, (hm plainBinding (List.forall_mem_singleton.mpr hi)).mpr (Or.inr ht),
    (ha _ (List.forall_mem_singleton.mpr hi)).mpr (Or.inr ht), by cbv⟩

def unendedBlock : Node :=
  .block (.rule exportSelector) [.leaf (.atRule ['x'] ['y']) { afterName := [' '] }] {}

/-- The entry that is added to such a block is gone when its print is read. -/
theorem rereads_extended_lost :
    parse ":export\x7b@x y\x7d".toList = .ok { nodes := [unendedBlock] } ∧
      unendedBlock.mergeBindings plainBinding = unendedBlock.addEntries [(['a'], ['b'])] ∧
      (unendedBlock.addEntries [(['a'], ['b'])]).print = ":export\x7b@x y\n  a: b;\n\x7d".toList ∧
      (unendedBlock.addEntries [(['a'], ['b'])]).entries = [(['a'], ['b'])] ∧
      ¬ (unendedBlock.addEntries [(['a'], ['b'])]).Rereads := by
  have hp : parse (unendedBlock.addEntries [(['a'], ['b'])]).print = .ok
      { nodes := [.block (.rule exportSelector)
        [.leaf (.atRule ['x'] "y\n  a: b".toList) { afterName := [' '], semicolon := true }]
        { after := ['\n'] }] } := by cbv
  refine ⟨by cbv, rfl, by decide, rfl, fun h => ?_⟩
  have he := (rereads_iff hp).mp h
  cases he

end StyleValues
