import StyleValues.Proofs.Interchange.ExtendedBlocks
import StyleValues.Proofs.Interchange.ImportRules
import StyleValues.Proofs.Resolution.ImportBlocks

/-!
# The nodes that a rewrite leaves

Every top-level node of a rewritten sheet is a node of the sheet without its
statements, an exchange block of the sheet with its new entries, or a new
block. The first are read as they were read before. The others are read back
if the entries and the paths that were written stand for themselves.
-/

set_option autoImplicit false

namespace StyleValues

section
variable {next before : Text} {nodes : List Node} {n : Node}

theorem legible_of_forall (h : ∀ n ∈ nodes, Legible next [n]) : Legible next nodes := by
  induction nodes with
  | nil => exact List.forall_mem_nil _
  | cons n rest ih =>
    obtain ⟨hn, hr⟩ := List.forall_mem_cons.mp h
    exact legible_cons.mpr ⟨hn, ih hr⟩

theorem filler_of_legible (h : Legible next [n]) : n.layout.before.all isFiller := by
  cases n with
  | leaf content layout => exact before_of_nextSegment (legible_leaf_iff.mp h)
  | block head children layout => exact before_of_nextSegment ((legible_block ..).mp h).1

theorem legible_withBefore (h : Legible next [n]) (hb : before.all isFiller) :
    Legible next [n.withBefore before] := by
  cases n with
  | leaf content layout => exact legible_leaf_iff.mpr (readsBack_withBefore (legible_leaf_iff.mp h) hb)
  | block head children layout =>
    obtain ⟨ho, hc, -⟩ := (legible_block ..).mp h
    exact (legible_block ..).mpr ⟨readsBack_withBefore ho hb, hc, List.forall_mem_nil _⟩

theorem Legible.prune (name : Text) (h : Legible next nodes) : Legible next (prune name nodes) := by
  induction nodes using forestInduction generalizing next with
  | nil => exact h
  | leaf content layout rest ih =>
    obtain ⟨hb, hn⟩ := (legible_leaf ..).mp h
    rw [StyleValues.prune]
    split
    · exact ih hn
    · exact (legible_leaf ..).mpr ⟨hb, ih hn⟩
  | block head children layout rest ihc ihr =>
    obtain ⟨hb, hc, hn⟩ := (legible_block ..).mp h
    rw [StyleValues.prune]
    split
    · exact ihr hn
    · exact (legible_block ..).mpr ⟨hb, ihc hc, ihr hn⟩

theorem Legible.pruned (name : Text) (h : Legible next [n]) : Legible next [n.pruned name] := by
  cases n with
  | leaf content layout => exact h
  | block head children layout =>
    obtain ⟨hb, hc, -⟩ := (legible_block ..).mp h
    exact (legible_block ..).mpr ⟨hb, hc.prune name, List.forall_mem_nil _⟩

/-! ### Blocks with new entries -/

theorem legible_terminateAll (h : Legible ['}'] nodes) : Legible ['}'] (terminateAll nodes) := by
  induction nodes with
  | nil => exact h
  | cons m rest ih =>
    obtain ⟨hm, hr⟩ := legible_cons.mp h
    cases rest with
    | nil => exact h
    | cons n rest => exact legible_cons.mpr ⟨legible_terminated hm, ih hr⟩

theorem legible_addEntries {entries : List (Text × Text)} (h : Legible [] [n])
    (he : ∀ e ∈ entries, PlainEntry e) : Legible [] [n.addEntries entries] := by
  rcases n with ⟨content, layout⟩ | ⟨_ | selector, children, layout⟩
  · exact h
  · exact h
  · obtain ⟨hs, hc, -⟩ := (legible_block ..).mp h
    exact (legible_block ..).mpr ⟨OpensRule.extended hs _, legible_terminateAll
      (legible_append.mpr ⟨hc, legible_newEntries (filler_lastIndent? hc) he⟩), List.forall_mem_nil _⟩

theorem legible_mergeBindings {bs : Bindings} (h : Legible [] [n])
    (he : ∀ b ∈ bs.entries, PlainEntry b.entry) : Legible [] [n.mergeBindings bs] := by
  rcases n with ⟨content, layout⟩ | ⟨_ | selector, children, layout⟩
  · exact h
  · exact h
  · obtain ⟨hs, hc, -⟩ := (legible_block ..).mp h
    have he : ∀ e ∈ bs.entries.map Binding.entry, PlainEntry e := List.forall_mem_map.mpr he
    have hm : Legible ['}'] (mergedWith (lastIndent? children) (bs.entries.map Binding.entry)
        children) := by
      refine legible_append.mpr ⟨legible_withValues (fun p v hv => he (p, v) (mem_of_lookup hv)) hc, ?_⟩
      exact legible_newEntries (filler_lastIndent? hc) fun e hm => he e (List.filter_sublist.mem hm)
    rw [Node.mergeBindings, mergeAll_eq _ _ bs.names_nodup]
    simp only
    split
    · exact (legible_block ..).mpr
        ⟨OpensRule.extended hs _, legible_terminateAll hm, List.forall_mem_nil _⟩
    · exact (legible_block ..).mpr ⟨hs, hm, List.forall_mem_nil _⟩

end

theorem leadText_exportSelector : LeadText exportSelector :=
  ⟨⟨by decide, closed_iff.mpr ⟨rfl, rfl, rfl⟩⟩, by decide, by decide, by decide⟩

/-! ### All nodes of a rewrite -/

section
variable {stem : Text} {nodes : List Node} {bs : Bindings}
  (hb : ∀ b ∈ bs.entries, PlainEntry b.entry)
  (ha : ∀ a ∈ allottedIn stem nodes, PlainEntry (a.2, a.1.source))
include ha

theorem plainEntry_of_mem_newEntriesIn {path : Text} : ∀ e ∈ newEntriesIn stem nodes path, PlainEntry e := by
  rw [newEntriesIn]
  exact List.forall_mem_map.mpr fun a hm => ha a (List.mem_filter.mp hm).1

include hb

theorem legible_extendedAt {i : Nat} {n : Node} (h : Legible [] [n]) :
    Legible [] [extendedAt stem nodes bs i n] := by
  have he : Legible [] [withEntries nodes (entriesIn stem nodes) i n] := by
    rw [withEntries]
    split
    · exact h
    · split
      · rw [map_entriesIn]
        exact legible_addEntries h (plainEntry_of_mem_newEntriesIn ha)
      · exact h
  rw [extendedAt, withBindings]
  split
  · exact legible_mergeBindings he hb
  · exact he

theorem legible_generatedRules (hp : ∀ u ∈ newUses nodes, SelfContained (importSelector u.path)) :
    ∀ n ∈ generatedRules stem nodes bs, Legible [] [n] := by
  intro n hn
  rw [generatedRules, List.mem_append] at hn
  rcases hn with hn | hn
  · obtain ⟨u, hu, rfl⟩ := List.mem_map.mp hn
    have hs := leadText_importSelector (hp u hu)
    rw [importRule, map_entriesIn]
    exact legible_addEntries ((legible_block ..).mpr
      ⟨readsBack_rule rfl hs [], List.forall_mem_nil _, List.forall_mem_nil _⟩)
        (plainEntry_of_mem_newEntriesIn ha)
  · split at hn
    · obtain rfl := List.mem_singleton.mp hn
      have he : ∀ e ∈ bs.entries.map Binding.entry, PlainEntry e := List.forall_mem_map.mpr hb
      have hl : Legible ['}'] (newEntries none (bs.entries.map Binding.entry)) :=
        legible_newEntries rfl he
      rw [newEntries, List.map_map] at hl
      exact (legible_block ..).mpr
        ⟨readsBack_rule rfl leadText_exportSelector [], hl, List.forall_mem_nil _⟩
    · cases hn

end

/-! ### Weaving -/

/-- A generated node or one that is not removed, with other white space in front. -/
def Woven (generated : Nat → List Node) (removed : Nat → Bool) (i : Nat) (nodes : List Node)
    (n : Node) : Prop :=
  ∃ (m : Node) (before : Text), n = m.withBefore before ∧ before.all isFiller ∧
    ((∃ j, m ∈ generated j) ∨ ∃ j, nodes[j]? = some m ∧ removed (i + j) = false)

section
variable {generated : Nat → List Node} {removed : Nat → Bool} {i : Nat} {nodes : List Node}
  {k n : Node}

theorem withBefore_self (n : Node) : n.withBefore n.layout.before = n := by
  cases n <;> rfl

theorem Woven.cons (h : Woven generated removed (i + 1) nodes n) :
    Woven generated removed i (k :: nodes) n := by
  obtain ⟨m, before, hm, hb, hj⟩ := h
  refine ⟨m, before, hm, hb, hj.imp_right ?_⟩
  rintro ⟨j, hj, hr⟩
  exact ⟨j + 1, hj, by rw [← hr]; congr 1; omega⟩

theorem woven_head {before : Text} (hb : before.all isFiller) (hr : ¬ removed i) :
    Woven generated removed i (k :: nodes) (k.withBefore before) :=
  ⟨k, before, rfl, hb, Or.inr ⟨0, rfl, Bool.eq_false_iff.mpr hr⟩⟩

theorem woven_of_generated {before : Text} (hb : before.all isFiller) (hk : k ∈ generated i) :
    Woven generated removed i nodes (k.withBefore before) :=
  ⟨k, before, rfl, hb, Or.inl ⟨i, hk⟩⟩

/-- Nothing else is woven, and no text but white space comes between. -/
theorem woven_of_mem (hg : ∀ i, ∀ m ∈ generated i, m.layout.before.all isFiller)
    (hn : ∀ m ∈ nodes, m.layout.before.all isFiller) {carried : Option Text}
    (hc : ∀ before ∈ carried, before.all isFiller)
    (h : n ∈ weave generated removed i carried nodes) : Woven generated removed i nodes n := by
  have hnone : ∀ before ∈ (none : Option Text), before.all isFiller := fun _ h => by cases h
  induction nodes generalizing i carried with
  | nil => cases h
  | cons k rest ih =>
    obtain ⟨hk, hrest⟩ := List.forall_mem_cons.mp hn
    rw [weave] at h
    split at h
    · split at h
      · refine (ih hrest ?_ h).cons
        cases carried with
        | none => exact fun before hb => by cases hb; exact hk
        | some carried => exact hc
      · next hr =>
        rcases List.mem_cons.mp h with rfl | h
        · have hw := @woven_head generated removed i rest n _ hk hr
          rwa [withBefore_self] at hw
        · exact (ih hrest hnone h).cons
    · next first more hgen =>
      have hall := hg i
      rw [hgen, List.forall_mem_cons] at hall
      rcases List.mem_append.mp h with h | h
      · rcases List.mem_cons.mp h with rfl | h
        · refine woven_of_generated ?_ (hgen ▸ List.mem_cons_self ..)
          cases carried with
          | none => exact hk
          | some carried => exact hc carried rfl
        · have hw := @woven_of_generated generated removed i (k :: rest) n _ (hall.2 n h)
            (hgen ▸ List.mem_cons_of_mem _ h)
          rwa [withBefore_self] at hw
      · split at h
        · exact (ih hrest hnone h).cons
        · next hr =>
          rcases List.mem_cons.mp h with rfl | h
          · exact woven_head rfl hr
          · exact (ih hrest hnone h).cons

end

/-- What stands in a rewritten sheet: a new block, or a node of the sheet that is no statement, with
its new entries and without the statements inside it. -/
theorem exists_of_mem_rewriteOf {config : Config} {input : List Message} {sheet : Stylesheet}
    (hl : Legible [] sheet.nodes)
    (hb : ∀ b ∈ (published config input sheet).entries, PlainEntry b.entry)
    (ha : ∀ a ∈ allottedIn config.stem sheet.nodes, PlainEntry (a.2, a.1.source))
    (hp : ∀ u ∈ newUses sheet.nodes, SelfContained (importSelector u.path)) {n : Node}
    (h : n ∈ rewriteOf config input sheet) :
    ∃ (m : Node) (before : Text), n = m.withBefore before ∧ before.all isFiller ∧
      (m ∈ generatedRules config.stem sheet.nodes (published config input sheet) ∨
        ∃ i k, sheet.nodes[i]? = some k ∧ ¬ k.isAtRule valueKeyword ∧
          m = (extendedAt config.stem sheet.nodes (published config input sheet) i k).pruned
            valueKeyword) := by
  have hkept : ∀ m ∈ (sheet.nodes.mapIdx (extendedAt config.stem sheet.nodes
      (published config input sheet))).map (Node.pruned valueKeyword), m.layout.before.all isFiller := by
    rw [List.forall_mem_map]
    intro m hm
    obtain ⟨i, hi, rfl⟩ := List.mem_mapIdx.mp hm
    exact filler_of_legible ((legible_extendedAt hb ha
      (hl.of_mem (List.getElem_mem hi))).pruned valueKeyword)
  rw [rewriteOf, imports_collect, rewrite, anchoredAt_generated, removePaths_extended] at h
  obtain ⟨m, before, hm, hf, hj⟩ := woven_of_mem (fun i m hm => filler_of_legible
    (legible_generatedRules hb ha hp m (mem_generatedRules _ _ _ hm))) hkept (fun _ h => by cases h) h
  refine ⟨m, before, hm, hf, hj.imp ?_ ?_⟩
  · rintro ⟨j, hj⟩
    exact mem_generatedRules _ _ _ hj
  · rintro ⟨j, hj, hr⟩
    rw [List.getElem?_map, List.getElem?_mapIdx, Option.map_map, Option.map_eq_some_iff] at hj
    obtain ⟨k, hk, rfl⟩ := hj
    rw [Nat.zero_add, isStatementAt_statementsIn, hk, Option.any_some] at hr
    exact ⟨j, k, hk, Bool.eq_false_iff.mp hr, rfl⟩

end StyleValues
