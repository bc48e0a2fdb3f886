import StyleValues.Proofs.Resolution.ExportBlock
import StyleValues.Proofs.Sheet.Legibility

/-!
# A run keeps a sheet arranged

No step of a run puts a node behind one without an end of its own. The only
place where it could is the end of an exchange block: a last declaration gets
its semicolon there before entries are added, and an at-rule does not.
-/

set_option autoImplicit false

namespace StyleValues

/-- Whether entries can be added behind all that is directly in a node: what has no end of its
own there is a declaration, or a statement that goes. -/
def Node.Extensible (n : Node) : Prop :=
  ∀ c ∈ n.children?.getD [], c.ends ∨ c.declaration?.isSome ∨ c.isAtRule valueKeyword

/-- Whether every block that a run adds entries to can take them. -/
def Extensible (config : Config) (input : List Message) (sheet : Stylesheet) : Prop :=
  ∀ (i : Nat) (n : Node), sheet.nodes[i]? = some n →
    n.entries.length <
        (extendedAt config.stem sheet.nodes (published config input sheet) i n).entries.length →
      n.Extensible

section
variable {after : Text} {nodes : List Node}

theorem arranged_of_ends (hf : after.all isFiller) (he : ∀ n ∈ nodes, n.ends ∧ n.Arranged) :
    Arranged after nodes := by
  induction nodes with
  | nil => exact hf
  | cons n rest ih =>
    obtain ⟨hn, hr⟩ := List.forall_mem_cons.mp he
    exact ⟨Or.inl hn.1, hn.2, ih hr⟩

theorem arranged_append {ms : List Node} (he : ∀ n ∈ ms, n.ends ∧ n.Arranged)
    (h : Arranged after nodes) : Arranged after (ms ++ nodes) := by
  induction ms with
  | nil => exact h
  | cons m ms ih =>
    obtain ⟨hm, hr⟩ := List.forall_mem_cons.mp he
    exact ⟨Or.inl hm.1, hm.2, ih hr⟩

theorem arranged_map_iff {f : Node → Node} (he : ∀ n : Node, (f n).ends = n.ends)
    (ha : ∀ n ∈ nodes, (f n).Arranged ↔ n.Arranged) :
    Arranged after (nodes.map f) ↔ Arranged after nodes := by
  induction nodes with
  | nil => exact Iff.rfl
  | cons n rest ih =>
    obtain ⟨hn, hr⟩ := List.forall_mem_cons.mp ha
    rw [List.map_cons, Arranged, Arranged, he, hn, ih hr, List.map_eq_nil_iff]

theorem arranged_map_withBefore (before : Text) :
    Arranged after (nodes.map (Node.withBefore before)) ↔ Arranged after nodes := by
  apply arranged_map_iff
  · rintro (⟨_ | _ | _, layout⟩ | ⟨head, children, layout⟩) <;> rfl
  · rintro (⟨content, layout⟩ | ⟨head, children, layout⟩) _ <;> exact Iff.rfl

theorem arranged_replacement (r : Replacement) : Arranged after (r.nodes nodes) ↔ Arranged after nodes := by
  have hl : ∀ (content : Leaf) (layout : Layout),
      (Node.leaf (r.leaf content) layout).ends = (Node.leaf content layout).ends := by
    rintro (_ | _ | _) layout <;> rfl
  have hn : ∀ ns : List Node, r.nodes ns = [] ↔ ns = [] := by
    intro ns
    rw [r.nodes_eq_map, List.map_eq_nil_iff]
  induction nodes using forestInduction generalizing after with
  | nil => exact Iff.rfl
  | leaf content layout rest ih =>
    have hr : Arranged after (r.nodes rest) ↔ Arranged after rest := ih
    rw [Replacement.nodes, Replacement.node, Arranged, Arranged, hl, hn, hr]
    exact Iff.rfl
  | block head children layout rest ihc ihr =>
    have hc : Arranged layout.after (r.nodes children) ↔ Arranged layout.after children := ihc
    have hr : Arranged after (r.nodes rest) ↔ Arranged after rest := ihr
    rw [Replacement.nodes, Replacement.node]
    split
    · rw [Arranged, Arranged, hn, hr]
    · rw [Arranged, Arranged, hn, hr, Node.Arranged, hc]
      exact Iff.rfl

theorem arranged_apply (r : Replacement) : Arranged after (r.apply nodes) ↔ Arranged after nodes := by
  rw [Replacement.apply]
  split
  · exact Iff.rfl
  · exact arranged_replacement r

theorem ends_pruned (name : Text) (n : Node) : (n.pruned name).ends = n.ends := by
  cases n <;> rfl

theorem Arranged.prune (name : Text) (h : Arranged after nodes) : Arranged after (prune name nodes) := by
  induction nodes using forestInduction generalizing after with
  | nil => exact h
  | leaf content layout rest ih =>
    obtain ⟨he, ha, hr⟩ := h
    rw [StyleValues.prune]
    split
    · exact ih hr
    · refine ⟨he.imp_right (And.imp_left ?_), ha, ih hr⟩
      intro hr
      rw [hr]
      rfl
  | block head children layout rest ihc ihr =>
    obtain ⟨-, ha, hr⟩ := h
    rw [StyleValues.prune]
    split
    · exact ihr hr
    · exact ⟨Or.inl rfl, ihc ha, ihr hr⟩

theorem Node.Arranged.pruned (name : Text) {n : Node} (h : n.Arranged) : (n.pruned name).Arranged := by
  cases n with
  | leaf content layout => exact h
  | block head children layout => exact StyleValues.Arranged.prune name h

end

/-! ### Extended blocks -/

theorem ends_terminated {n : Node} (h : n.ends ∨ n.declaration?.isSome) : n.terminated.ends := by
  rcases n with ⟨_ | _ | _, layout⟩ | ⟨head, children, layout⟩
  · exact h.resolve_right Bool.false_ne_true
  · rfl
  · rfl
  · rfl

theorem terminated_of_ends {n : Node} (h : n.ends) : n.terminated = n := by
  rcases n with ⟨_ | _ | _, layout⟩ | ⟨head, children, layout⟩
  · rfl
  · have hs : layout.semicolon = true := h
    rw [Node.terminated, ← hs]
  · rfl
  · rfl

theorem terminated_of_not_declaration {n : Node} (h : n.declaration? = none) : n.terminated = n := by
  rcases n with ⟨_ | _ | _, layout⟩ | ⟨head, children, layout⟩
  · rfl
  · cases h
  · rfl
  · rfl

theorem map_terminated_of_ends {nodes : List Node} (h : ∀ n ∈ nodes, n.ends) : nodes.map Node.terminated = nodes :=
  (List.map_congr_left fun n hn => terminated_of_ends (h n hn)).trans (List.map_id nodes)

theorem arranged_terminated {n : Node} (h : n.Arranged) : n.terminated.Arranged := by
  rcases n with ⟨_ | _ | _, layout⟩ | ⟨head, children, layout⟩ <;> exact h

theorem isAtRule_terminated (name : Text) (n : Node) :
    n.terminated.isAtRule name = n.isAtRule name := by
  rcases n with ⟨_ | _ | _, layout⟩ | ⟨head, children, layout⟩ <;> rfl

theorem arranged_newEntries {after : Text} (hf : after.all isFiller) (indent : Option Text)
    (entries : List (Text × Text)) :
    Arranged after (entries.map fun e => newEntry indent e.1 e.2) := by
  apply arranged_of_ends hf
  intro n hn
  obtain ⟨e, -, rfl⟩ := List.mem_map.mp hn
  exact ⟨rfl, trivial⟩

theorem arranged_extended {after after' : Text} {children : List Node} (indent : Option Text)
    {entries : List (Text × Text)} (he : entries ≠ []) (h : Arranged after children)
    (hx : ∀ c ∈ children, c.ends ∨ c.declaration?.isSome ∨ c.isAtRule valueKeyword)
    (hf : after'.all isFiller) :
    Arranged after' (prune valueKeyword
      (terminateAll (children ++ entries.map fun e => newEntry indent e.1 e.2))) := by
  induction children with
  | nil =>
    rw [List.nil_append, terminateAll_newEntries, prune_newEntries]
    exact arranged_newEntries hf indent entries
  | cons c rest ih =>
    obtain ⟨hc, hr⟩ := List.forall_mem_cons.mp hx
    obtain ⟨m, more, hm⟩ := List.exists_cons_of_ne_nil
      (List.append_ne_nil_of_right_ne_nil rest (List.map_eq_nil_iff.not.mpr he) :
        rest ++ entries.map (fun e => newEntry indent e.1 e.2) ≠ [])
    have ih := ih h.2.2 hr
    rw [hm] at ih
    rw [List.cons_append, hm, terminateAll, prune, isAtRule_terminated]
    split
    · exact ih
    · next ha =>
      -- The child stays, so it must have an end, and a declaration has just got one.
      have hd : c.ends ∨ c.declaration?.isSome := hc.imp_right fun hc => hc.resolve_right ha
      refine ⟨Or.inl ?_, (arranged_terminated h.2.1).pruned valueKeyword, ih⟩
      rw [ends_pruned]
      exact ends_terminated hd

theorem withValues_eq_nil_iff {value? : Text → Option Text} {nodes : List Node} :
    withValues value? nodes = [] ↔ nodes = [] := by
  induction nodes using declarationInduction with
  | nil => exact Iff.rfl
  | declaration property value layout rest ih =>
    exact iff_of_false (List.cons_ne_nil _ _) (List.cons_ne_nil _ _)
  | other n rest h ih =>
    rw [withValues_other h]
    exact iff_of_false (List.cons_ne_nil _ _) (List.cons_ne_nil _ _)

theorem arranged_withValues {after : Text} {value? : Text → Option Text} {nodes : List Node}
    (h : Arranged after nodes) : Arranged after (withValues value? nodes) := by
  induction nodes using declarationInduction generalizing value? with
  | nil => exact h
  | declaration property value layout rest ih =>
    exact ⟨h.1.imp_right (And.imp_left withValues_eq_nil_iff.mpr), trivial, ih h.2.2⟩
  | other n rest hn ih =>
    rw [withValues_other hn]
    exact ⟨h.1.imp_right (And.imp_left withValues_eq_nil_iff.mpr), h.2.1, ih h.2.2⟩

theorem forall_mem_withValues {P : Node → Prop} {value? : Text → Option Text} {nodes : List Node}
    (hd : ∀ property value layout, P (.leaf (.declaration property value) layout))
    (h : ∀ n ∈ nodes, P n) : ∀ n ∈ withValues value? nodes, P n := by
  induction nodes using declarationInduction generalizing value? with
  | nil => exact h
  | declaration property value layout rest ih =>
    exact List.forall_mem_cons.mpr ⟨hd _ _ _, ih (List.forall_mem_cons.mp h).2⟩
  | other n rest hn ih =>
    obtain ⟨hn', hr⟩ := List.forall_mem_cons.mp h
    rw [withValues_other hn]
    exact List.forall_mem_cons.mpr ⟨hn', ih hr⟩

theorem entries_extendedRule (selector : Text) (children : List Node) (layout : Layout) :
    (extendedRule selector children layout).entries = declarationsIn children :=
  declarationsIn_terminateAll children

theorem length_declarationsIn_mergedWith (indent : Option Text) (entries : List (Text × Text))
    (nodes : List Node) :
    (declarationsIn (mergedWith indent entries nodes)).length =
      (declarationsIn nodes).length + (undeclared nodes entries).length := by
  have hp := congrArg List.length
    (propertiesIn_withValues (fun property => entries.lookup property) nodes)
  rw [propertiesIn, propertiesIn, List.length_map, List.length_map] at hp
  rw [mergedWith, declarationsIn_append, declarationsIn_newEntries, List.length_append, hp]

section
variable {n : Node}

theorem filler_extended {layout : Layout} (children : List Node) (h : layout.after.all isFiller) :
    (layout.extended children).after.all isFiller := by
  rw [Layout.extended]
  split
  · rfl
  · exact h

theorem arranged_addEntries {entries : List (Text × Text)} (he : entries ≠ []) (ha : n.Arranged)
    (hx : n.Extensible) : ((n.addEntries entries).pruned valueKeyword).Arranged := by
  rcases n with ⟨content, layout⟩ | ⟨_ | selector, children, layout⟩
  · trivial
  · exact Node.Arranged.pruned valueKeyword ha
  · exact arranged_extended _ he ha hx (filler_extended _ ha.filler)

/-- Merging adds an entry or only sets values, and then every node keeps its end. -/
theorem arranged_mergeBindings (bs : Bindings) (ha : n.Arranged)
    (hx : n.entries.length < (n.mergeBindings bs).entries.length → n.Extensible) :
    ((n.mergeBindings bs).pruned valueKeyword).Arranged := by
  rcases n with ⟨content, layout⟩ | ⟨_ | selector, children, layout⟩
  · trivial
  · exact Node.Arranged.pruned valueKeyword ha
  · have ha : Arranged layout.after children := ha
    have hv : Arranged layout.after
        (withValues (fun property => (bs.entries.map Binding.entry).lookup property) children) :=
      arranged_withValues ha
    rw [Node.mergeBindings, mergeAll_eq _ _ bs.names_nodup] at hx ⊢
    simp only at hx ⊢
    split
    · next hu =>
      rw [if_pos hu] at hx
      rw [Bool.not_eq_true', List.isEmpty_eq_false_iff] at hu
      rw [entries_extendedRule, length_declarationsIn_mergedWith] at hx
      have hlen : (declarationsIn children).length <
          (declarationsIn children).length +
            (undeclared children (bs.entries.map Binding.entry)).length :=
        Nat.lt_add_of_pos_right (List.length_pos_iff.mpr hu)
      refine arranged_extended _ hu hv ?_ (filler_extended _ ha.filler)
      exact forall_mem_withValues (fun _ _ _ => Or.inr (Or.inl rfl)) (hx hlen)
    · next hu =>
      rw [Bool.not_eq_true', Bool.not_eq_false, List.isEmpty_iff] at hu
      rw [mergedWith, hu, List.map_nil, List.append_nil]
      exact hv.prune valueKeyword

end

theorem arranged_extendedAt (stem : Text) {nodes : List Node} (bs : Bindings) {i : Nat} {n : Node}
    (hn : nodes[i]? = some n) (ha : n.Arranged)
    (hx : n.entries.length < (extendedAt stem nodes bs i n).entries.length → n.Extensible) :
    ((extendedAt stem nodes bs i n).pruned valueKeyword).Arranged := by
  by_cases hb : isExportBlock n
  · rw [extendedAt_of_isExportBlock stem nodes bs i hb] at hx ⊢
    split
    · next hf =>
      rw [if_pos hf] at hx
      exact arranged_mergeBindings bs ha hx
    · exact ha.pruned valueKeyword
  · have hf : findExport? nodes ≠ some i := fun hf => hb (isExportBlock_of_findExport? hn hf)
    rw [extendedAt, withBindings, if_neg hf, withEntries] at hx ⊢
    split
    · exact ha.pruned valueKeyword
    · next path hp =>
      split
      · next hg =>
        rw [hp] at hx
        simp only [if_pos hg] at hx
        rw [Bool.and_eq_true, Bool.not_eq_true', List.isEmpty_eq_false_iff] at hg
        have hs := selector?_isSome_of_importPath? hp
        rw [entries_addEntries hs, List.length_append, List.length_map] at hx
        exact arranged_addEntries (List.map_eq_nil_iff.not.mpr hg.2) ha
          (hx (Nat.lt_add_of_pos_right (List.length_pos_iff.mpr hg.2)))
      · exact ha.pruned valueKeyword

/-! ### The whole sheet -/

/-- A generated block is a rule with nothing but new entries in it. -/
theorem eq_rule_of_mem_generatedRules (stem : Text) (nodes : List Node) (bs : Bindings) {n : Node}
    (h : n ∈ generatedRules stem nodes bs) :
    ∃ (selector : Text) (entries : List (Text × Text)) (layout : Layout),
      n = .block (.rule selector) (entries.map fun e => newEntry none e.1 e.2) layout ∧
        layout.after.all isFiller := by
  rw [generatedRules, List.mem_append] at h
  rcases h with h | h
  · obtain ⟨u, -, rfl⟩ := List.mem_map.mp h
    have hl : lastIndent? [] = none := rfl
    rw [importRule, Node.rule, Node.addEntries, extendedRule, List.nil_append, hl,
      terminateAll_newEntries]
    exact ⟨_, _, _, rfl, filler_extended _ rfl⟩
  · split at h
    · obtain rfl := List.mem_singleton.mp h
      refine ⟨exportSelector, bs.entries.map Binding.entry, .rule, ?_, rfl⟩
      rw [List.map_map]
      rfl
    · cases h

theorem arranged_generatedRules (stem : Text) (nodes : List Node) (bs : Bindings) :
    ∀ n ∈ generatedRules stem nodes bs, n.ends ∧ n.Arranged := by
  intro n hn
  obtain ⟨selector, entries, layout, rfl, hf⟩ := eq_rule_of_mem_generatedRules stem nodes bs hn
  exact ⟨rfl, arranged_newEntries hf none entries⟩

theorem ends_extendedAt (stem : Text) (nodes : List Node) (bs : Bindings) (i : Nat) (n : Node) :
    (extendedAt stem nodes bs i n).ends = n.ends := by
  have ha : ∀ (entries : List (Text × Text)) (m : Node), (m.addEntries entries).ends = m.ends := by
    rintro entries (⟨content, layout⟩ | ⟨_ | selector, children, layout⟩) <;> rfl
  have hm : ∀ m : Node, (m.mergeBindings bs).ends = m.ends := by
    rintro (⟨content, layout⟩ | ⟨_ | selector, children, layout⟩)
    · rfl
    · rfl
    · rw [Node.mergeBindings]
      split <;> rfl
  have he : (withEntries nodes (entriesIn stem nodes) i n).ends = n.ends := by
    rw [withEntries]
    split
    · rfl
    · split
      · exact ha _ n
      · rfl
  rw [extendedAt, withBindings]
  split
  · rw [hm, he]
  · exact he

theorem arranged_rewritten (stem : Text) {nodes : List Node} (bs : Bindings) {after : Text}
    (ha : Arranged after nodes)
    (hx : ∀ (i : Nat) (n : Node), nodes[i]? = some n →
      n.entries.length < (extendedAt stem nodes bs i n).entries.length → n.Extensible) :
    Arranged after (rewritten stem nodes bs) := by
  have h : ∀ l : List (Node × Nat), (∀ e ∈ l, nodes[e.2]? = some e.1) →
      Arranged after (l.map Prod.fst) →
      Arranged after (l.flatMap fun e => generatedAt stem nodes bs e.2 ++
        survivorAt stem nodes bs e.2 e.1) := by
    intro l hl ha
    induction l with
    | nil => exact ha
    | cons e l ih =>
      obtain ⟨he, hl⟩ := List.forall_mem_cons.mp hl
      obtain ⟨hend, hn, hr⟩ := ha
      have hg : ∀ n ∈ generatedAt stem nodes bs e.2, n.ends ∧ n.Arranged := fun n hn =>
        arranged_generatedRules stem nodes bs n (mem_generatedRules stem nodes bs hn)
      rw [List.flatMap_cons, List.append_assoc]
      refine arranged_append hg ?_
      rw [survivorAt]
      split
      · exact ih hl hr
      · refine ⟨?_, arranged_extendedAt stem bs he hn (hx _ _ he), ih hl hr⟩
        rw [ends_pruned, ends_extendedAt]
        refine hend.imp_right (And.imp_left ?_)
        intro hr
        rw [List.map_eq_nil_iff.mp hr]
        rfl
  have hz := h nodes.zipIdx fun e he => List.mem_zipIdx_iff_getElem?.mp he
  rw [List.zipIdx_map_fst] at hz
  exact hz ha

/-- A run leaves an arranged sheet, unless entries were added behind an at-rule without an end. -/
theorem arranged_resolve (config : Config) (input : List Message) {sheet : Stylesheet}
    (ha : Arranged sheet.after sheet.nodes) (hx : Extensible config input sheet) :
    Arranged (resolve config input sheet).1.after (resolve config input sheet).1.nodes := by
  have hr : (resolve config input sheet).1.nodes =
      (replacementOf config input sheet).apply (rewriteOf config input sheet) := rfl
  rw [hr, arranged_apply, ← arranged_map_withBefore [], rewriteOf, imports_collect,
    rewrite_eq_rewritten, arranged_map_withBefore]
  exact arranged_rewritten config.stem (published config input sheet) ha hx

end StyleValues
