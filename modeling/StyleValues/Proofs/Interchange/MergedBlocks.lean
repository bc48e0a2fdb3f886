import StyleValues.Proofs.Interchange.Merging

/-!
# Merging, child by child

What merging a table into a block makes of every single child, and what it
puts behind the last. The entries that are added when a table is merged are
there when it is merged again, so the second time changes nothing.
-/

set_option autoImplicit false

namespace StyleValues

def Node.declares (property : Text) (n : Node) : Bool :=
  n.declaration?.any fun d => d.1 == property

/-- What becomes of the child at place `i`: the first declaration of a property takes the value
that is known for it, and every other child stays as it is. -/
def mergedChild (value? : Text → Option Text) (children : List Node) (i : Nat) : Node → Node
  | .leaf (.declaration property value) layout =>
    if children.findIdx (Node.declares property) = i then
      .leaf (.declaration property ((value? property).getD value)) layout
    else .leaf (.declaration property value) layout
  | n => n

section
variable {n : Node} (h : n.declaration? = none)
include h

theorem declares_other (property : Text) : n.declares property = false := by
  rw [Node.declares, h]
  rfl

theorem mergedChild_other (value? : Text → Option Text) (children : List Node) (i : Nat) :
    mergedChild value? children i n = n := by
  rw [mergedChild]
  rintro property value layout rfl
  cases h

theorem mergedChild_behind_other (value? : Text → Option Text) (children : List Node) (i : Nat) :
    mergedChild value? (n :: children) (i + 1) = mergedChild value? children i := by
  funext m
  rcases m with ⟨_ | ⟨property, value⟩ | _, layout⟩ | ⟨head, inside, layout⟩
  · rfl
  · rw [mergedChild, mergedChild, List.findIdx_cons, declares_other h, cond_false]
    simp only [Nat.add_left_inj]
  · rfl
  · rfl

end

theorem declares_declaration (property p v : Text) (layout : Layout) :
    Node.declares property (.leaf (.declaration p v) layout) = (p == property) :=
  rfl

/-- Behind a declaration its property is no longer known. -/
theorem mergedChild_behind_declaration (value? : Text → Option Text) (p v : Text) (layout : Layout)
    (rest : List Node) (i : Nat) :
    mergedChild value? (.leaf (.declaration p v) layout :: rest) (i + 1) =
      mergedChild (fun q => if q = p then none else value? q) rest i := by
  funext m
  rcases m with ⟨_ | ⟨property, value⟩ | _, own⟩ | ⟨head, inside, own⟩
  · rfl
  · rw [mergedChild, mergedChild, List.findIdx_cons, declares_declaration]
    by_cases e : property = p
    · rw [if_pos e, e, beq_self_eq_true, cond_true, if_neg (Nat.succ_ne_zero i).symm]
      exact (ite_self _).symm
    · rw [if_neg e, beq_eq_false_iff_ne.mpr fun e' => e e'.symm, cond_false]
      simp only [Nat.add_left_inj]
  · rfl
  · rfl

theorem withValues_eq_mapIdx (value? : Text → Option Text) (nodes : List Node) :
    withValues value? nodes = nodes.mapIdx (mergedChild value? nodes) := by
  induction nodes using declarationInduction generalizing value? with
  | nil => rfl
  | declaration p v layout rest ih =>
    have hfirst : mergedChild value? (.leaf (.declaration p v) layout :: rest) 0
        (.leaf (.declaration p v) layout) =
          .leaf (.declaration p ((value? p).getD v)) layout := by
      rw [mergedChild, List.findIdx_cons, declares_declaration, beq_self_eq_true, cond_true, if_pos rfl]
    rw [withValues, ih, List.mapIdx_cons, hfirst]
    simp only [mergedChild_behind_declaration]
  | other n rest h ih =>
    rw [withValues_other h, ih, List.mapIdx_cons, mergedChild_other h]
    simp only [mergedChild_behind_other h]

theorem withValues_eq_self {value? : Text → Option Text} {nodes : List Node}
    (h : ∀ p ∈ propertiesIn nodes, ∀ v, value? p = some v →
      (declarationsIn nodes).lookup p = some v) :
    withValues value? nodes = nodes := by
  induction nodes using declarationInduction generalizing value? with
  | nil => rfl
  | declaration p v layout rest ih =>
    have hd : declarationsIn (.leaf (.declaration p v) layout :: rest) =
      (p, v) :: declarationsIn rest := rfl
    have hp : (value? p).getD v = v := by
      cases hv : value? p with
      | none => rfl
      | some w =>
        have hl := h p (List.mem_cons_self ..) w hv
        rw [hd, List.lookup_cons, beq_self_eq_true] at hl
        exact (Option.some.inj hl).symm
    have hr : withValues (fun q => if q = p then none else value? q) rest = rest := by
      apply ih
      intro q hq w hw
      split at hw
      · cases hw
      · next hne =>
        have hl := h q (List.mem_cons_of_mem _ hq) w hw
        rwa [hd, List.lookup_cons, beq_eq_false_iff_ne.mpr hne] at hl
    rw [withValues, hp, hr]
  | other n rest hn ih =>
    rw [propertiesIn_other hn, declarationsIn_other hn] at h
    rw [withValues_other hn, ih h]

theorem any_declares (property : Text) (nodes : List Node) :
    nodes.any (Node.declares property) = (propertiesIn nodes).contains property := by
  induction nodes using declarationInduction with
  | nil => rfl
  | declaration p v layout rest ih =>
    rw [List.any_cons, ih, declares_declaration, BEq.comm]
    rfl
  | other n rest hn ih =>
    rw [List.any_cons, ih, declares_other hn, propertiesIn_other hn]
    rfl

theorem Bindings.lookup_entries (bs : Bindings) (name : Text) :
    (bs.entries.map Binding.entry).lookup name = bs.value? name := by
  rw [Bindings.value?, Bindings.find?]
  induction bs.entries with
  | nil => rfl
  | cons b entries ih =>
    rw [List.map_cons, List.lookup_cons, List.find?_cons, BEq.comm, Binding.entry]
    cases b.name == name with
    | true => rfl
    | false => exact ih

section
variable (bs : Bindings) (children : List Node)

theorem undeclared_entries :
    undeclared children (bs.entries.map Binding.entry) =
      (bs.entries.filter fun b => !children.any (Node.declares b.name)).map Binding.entry := by
  simp only [any_declares]
  exact List.filter_map

theorem Node.mergeBindings_rule (selector : Text) (layout : Layout) :
    Node.mergeBindings bs (.block (.rule selector) children layout) =
      if undeclared children (bs.entries.map Binding.entry) = [] then
        .block (.rule selector) (withValues bs.value? children) layout
      else extendedRule selector
        (mergedWith (lastIndent? children) (bs.entries.map Binding.entry) children) layout := by
  have hv : withValues (fun p => (bs.entries.map Binding.entry).lookup p) children =
      withValues bs.value? children := by
    simp only [Bindings.lookup_entries]
  rw [Node.mergeBindings, mergeAll_eq _ children bs.names_nodup, mergedWith, hv]
  cases undeclared children (bs.entries.map Binding.entry) with
  | nil => exact congrArg (Node.block _ · layout) (List.append_nil _)
  | cons => rfl

/-- A block in which every name of the table has its value is left as it is. -/
theorem Node.mergeBindings_eq_self (selector : Text) (layout : Layout)
    (h : ∀ b ∈ bs.entries, (declarationsIn children).lookup b.name = some b.value) :
    Node.mergeBindings bs (.block (.rule selector) children layout) =
      .block (.rule selector) children layout := by
  have hu : undeclared children (bs.entries.map Binding.entry) = [] := by
    rw [undeclared_entries, List.map_eq_nil_iff, List.filter_eq_nil_iff]
    intro b hb
    rw [any_declares, Bool.not_eq_true', Bool.not_eq_false, List.contains_iff_mem]
    exact List.mem_map_of_mem (mem_of_lookup (h b hb))
  have hv : withValues bs.value? children = children := by
    apply withValues_eq_self
    intro p _ v hv
    rw [← Bindings.lookup_entries] at hv
    obtain ⟨b, hb, he⟩ := List.mem_map.mp (mem_of_lookup hv)
    cases he
    exact h b hb
  rw [Node.mergeBindings_rule, if_pos hu, hv]

end

theorem extendedRule_newEntries (selector : Text) (nodes : List Node) (layout : Layout)
    (indent : Option Text) {entries : List (Text × Text)} (h : entries ≠ []) :
    extendedRule selector (nodes ++ entries.map fun e => newEntry indent e.1 e.2) layout =
      .block (.rule selector)
        (nodes.map Node.terminated ++ entries.map fun e => newEntry indent e.1 e.2)
        { layout with after := if layout.after = [] then ['\n'] else layout.after } := by
  have hne : entries.map (fun e => newEntry indent e.1 e.2) ≠ [] := by simpa using h
  have hempty : (nodes ++ entries.map fun e => newEntry indent e.1 e.2).isEmpty = false :=
    List.isEmpty_eq_false_iff.mpr (List.append_ne_nil_of_right_ne_nil nodes hne)
  rw [extendedRule, terminateAll_append nodes hne, terminateAll_newEntries, Layout.extended, hempty,
    Bool.not_false, Bool.and_true]
  rcases layout with ⟨before, between, afterName, _ | _, semicolon⟩ <;> rfl

/-- Merging a table into a rule sets the first declaration of each name to the value of the name and
puts an entry behind all children for each name that had no declaration, in the order of the table.
Nothing else changes, but that entries which get another one behind them end with a semicolon, and
that the closing brace does not touch an added entry. Merging the table again changes nothing. -/
theorem mergeBindings_of_children (bs : Bindings) (selector : Text) (children : List Node)
    (layout : Layout) :
    let old := children.mapIdx (mergedChild bs.value? children)
    let added := bs.entries.filter fun b => !children.any (Node.declares b.name)
    let merged := Node.mergeBindings bs (.block (.rule selector) children layout)
    (added = [] → merged = .block (.rule selector) old layout) ∧
      (added ≠ [] → merged = .block (.rule selector)
        (old.map Node.terminated ++
          added.map fun b => newEntry (lastIndent? children) b.name b.value)
        { layout with after := if layout.after = [] then ['\n'] else layout.after }) ∧
      merged.mergeBindings bs = merged := by
  intro old added merged
  have hall : mergedWith (lastIndent? children) (bs.entries.map Binding.entry) children =
      old ++ (added.map Binding.entry).map fun e => newEntry (lastIndent? children) e.1 e.2 := by
    rw [mergedWith, undeclared_entries, withValues_eq_mapIdx]
    simp only [Bindings.lookup_entries]
    rfl
  have hrule : merged = _ := Node.mergeBindings_rule bs children selector layout
  rw [undeclared_entries, hall, withValues_eq_mapIdx] at hrule
  have hnone : added = [] → merged = .block (.rule selector) old layout := by
    intro h
    rw [hrule, if_pos (List.map_eq_nil_iff.mpr h)]
  have hsome : added ≠ [] → merged = extendedRule selector (old ++
      (added.map Binding.entry).map fun e => newEntry (lastIndent? children) e.1 e.2) layout := by
    intro h
    rw [hrule, if_neg (mt List.map_eq_nil_iff.mp h)]
  have hvalues : ∀ b ∈ bs.entries, (declarationsIn (old ++ (added.map Binding.entry).map
      fun e => newEntry (lastIndent? children) e.1 e.2)).lookup b.name = some b.value := by
    intro b hb
    have hn : ((bs.entries.map Binding.entry).map Prod.fst).Nodup := by
      rw [map_fst_entry]
      exact bs.names_nodup
    have hl := lookup_mergedWith (lastIndent? children) children hn (List.mem_map_of_mem hb)
    rwa [hall] at hl
  refine ⟨hnone, ?_, ?_⟩
  · intro h
    rw [hsome h, extendedRule_newEntries selector old layout _ (mt List.map_eq_nil_iff.mp h),
      List.map_map]
    rfl
  · by_cases h : added = []
    · rw [h, List.map_nil, List.map_nil, List.append_nil] at hvalues
      rw [hnone h, Node.mergeBindings_eq_self bs old selector layout hvalues]
    · rw [hsome h, extendedRule, Node.mergeBindings_eq_self bs _ selector _ ?_]
      intro b hb
      rw [declarationsIn_terminateAll, hvalues b hb]

end StyleValues
