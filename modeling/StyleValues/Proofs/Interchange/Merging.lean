import Mathlib.Data.List.Induction
import StyleValues.Interchange.Exports
import StyleValues.Proofs.Sheet.Removal

/-!
# The entries of an extended block

What a block declares after entries were added to it or bindings were merged
into it. Merging changes the first declaration of each bound name and nothing
else, and puts behind all children an entry for every name that had none
(`mergeAll_eq`): a binding never finds the entry of another one, as the names
differ.
-/

set_option autoImplicit false

namespace StyleValues

def propertiesIn (nodes : List Node) : List Text := (declarationsIn nodes).map Prod.fst

def Node.entries (n : Node) : List (Text × Text) := declarationsIn (n.children?.getD [])

section
variable (indent : Option Text) (nodes : List Node)

theorem declarationsIn_append (ms ns : List Node) :
    declarationsIn (ms ++ ns) = declarationsIn ms ++ declarationsIn ns :=
  List.filterMap_append

theorem propertiesIn_append (ms ns : List Node) :
    propertiesIn (ms ++ ns) = propertiesIn ms ++ propertiesIn ns := by
  rw [propertiesIn, declarationsIn_append, List.map_append]
  rfl

theorem declarationsIn_newEntries (entries : List (Text × Text)) :
    declarationsIn (entries.map fun e => newEntry indent e.1 e.2) = entries := by
  rw [declarationsIn, List.filterMap_map]
  exact List.filterMap_some

theorem declaration?_terminated (n : Node) : n.terminated.declaration? = n.declaration? := by
  rcases n with ⟨content, layout⟩ | ⟨head, children, layout⟩
  · cases content <;> rfl
  · rfl

theorem declarationsIn_terminateAll : declarationsIn (terminateAll nodes) = declarationsIn nodes := by
  induction nodes using terminateAll.induct with
  | case1 => rfl
  | case2 n => rfl
  | case3 m n rest ih =>
    rw [terminateAll, declarationsIn, List.filterMap_cons, declaration?_terminated,
      ← declarationsIn, ih]
    rfl

theorem declarationsIn_prune (name : Text) :
    declarationsIn (prune name nodes) = declarationsIn nodes := by
  induction nodes with
  | nil => rfl
  | cons n rest ih =>
    have hd : (n.pruned name).declaration? = n.declaration? := by cases n <;> rfl
    have ha : n.isAtRule name → n.declaration? = none := by
      rcases n with ⟨_ | _ | _, layout⟩ | ⟨head, children, layout⟩
      · intro _; rfl
      · intro h; cases h
      · intro _; rfl
      · intro _; rfl
    rw [prune]
    split
    · next h =>
      rw [ih, declarationsIn, declarationsIn, List.filterMap_cons, ha h]
    · rw [declarationsIn, List.filterMap_cons, ← declarationsIn, ih, hd]
      rfl

end

theorem terminateAll_eq_self {nodes : List Node} (h : ∀ n ∈ nodes, n.terminated = n) :
    terminateAll nodes = nodes := by
  induction nodes using terminateAll.induct with
  | case1 => rfl
  | case2 n => rfl
  | case3 m n rest ih =>
    obtain ⟨hm, hr⟩ := List.forall_mem_cons.mp h
    rw [terminateAll, hm, ih hr]

theorem terminateAll_append (ms : List Node) {ns : List Node} (h : ns ≠ []) :
    terminateAll (ms ++ ns) = ms.map Node.terminated ++ terminateAll ns := by
  induction ms with
  | nil => rfl
  | cons m ms ih =>
    obtain ⟨n, rest, hn⟩ := List.exists_cons_of_ne_nil (List.append_ne_nil_of_right_ne_nil ms h)
    rw [hn] at ih
    rw [List.cons_append, hn, terminateAll, ih]
    rfl

theorem terminateAll_newEntries (indent : Option Text) (entries : List (Text × Text)) :
    terminateAll (entries.map fun e => newEntry indent e.1 e.2) =
      entries.map fun e => newEntry indent e.1 e.2 := by
  apply terminateAll_eq_self
  intro n hn
  obtain ⟨e, -, rfl⟩ := List.mem_map.mp hn
  rfl

theorem entries_addEntries {n : Node} (h : n.selector?.isSome) (entries : List (Text × Text)) :
    (n.addEntries entries).entries = n.entries ++ entries := by
  rcases n with ⟨content, layout⟩ | ⟨_ | selector, children, layout⟩
  · cases h
  · cases h
  · have hc : (Node.addEntries entries (.block (.rule selector) children layout)).entries =
        declarationsIn (terminateAll (children ++
          entries.map fun e => newEntry (lastIndent? children) e.1 e.2)) := rfl
    rw [hc, declarationsIn_terminateAll, declarationsIn_append, declarationsIn_newEntries]
    rfl

/-! ### Merging -/

/-- Induction over sibling lists that tells declarations from all other nodes. -/
@[elab_as_elim]
theorem declarationInduction {P : List Node → Prop} (nil : P [])
    (declaration : ∀ property value layout rest, P rest →
      P (.leaf (.declaration property value) layout :: rest))
    (other : ∀ n rest, n.declaration? = none → P rest → P (n :: rest)) (nodes : List Node) :
    P nodes := by
  induction nodes with
  | nil => exact nil
  | cons n rest ih =>
    rcases n with ⟨_ | ⟨property, value⟩ | _, layout⟩ | ⟨head, children, layout⟩
    · exact other _ rest rfl ih
    · exact declaration property value layout rest ih
    · exact other _ rest rfl ih
    · exact other _ rest rfl ih

/-- The nodes with the known values, each at the first declaration of its property. -/
def withValues : (Text → Option Text) → List Node → List Node
  | _, [] => []
  | value?, .leaf (.declaration property value) layout :: rest =>
    .leaf (.declaration property ((value? property).getD value)) layout ::
      withValues (fun p => if p = property then none else value? p) rest
  | value?, n :: rest => n :: withValues value? rest

section
variable {n : Node} (h : n.declaration? = none) (rest : List Node)
include h

theorem withValues_other (value? : Text → Option Text) :
    withValues value? (n :: rest) = n :: withValues value? rest := by
  rw [withValues]
  rintro property value layout rfl
  cases h

theorem setDeclared?_other (property value : Text) :
    setDeclared? property value (n :: rest) = (setDeclared? property value rest).map (n :: ·) := by
  rw [setDeclared?]
  rintro p v layout rfl
  cases h

theorem declarationsIn_other : declarationsIn (n :: rest) = declarationsIn rest := by
  rw [declarationsIn, List.filterMap_cons, h]
  rfl

theorem propertiesIn_other : propertiesIn (n :: rest) = propertiesIn rest := by
  rw [propertiesIn, declarationsIn_other h, propertiesIn]

end

theorem propertiesIn_withValues (value? : Text → Option Text) (nodes : List Node) :
    propertiesIn (withValues value? nodes) = propertiesIn nodes := by
  induction nodes using declarationInduction generalizing value? with
  | nil => rfl
  | declaration property value layout rest ih =>
    exact congrArg (property :: ·) (ih fun p => if p = property then none else value? p)
  | other n rest h ih => rw [withValues_other h, propertiesIn_other h, ih, propertiesIn_other h]

theorem map_withValues {β : Type} {f : Node → β} (hf : ∀ property value value' layout,
      f (.leaf (.declaration property value) layout) = f (.leaf (.declaration property value') layout))
    (value? : Text → Option Text) (nodes : List Node) :
    (withValues value? nodes).map f = nodes.map f := by
  induction nodes using declarationInduction generalizing value? with
  | nil => rfl
  | declaration property value layout rest ih =>
    rw [withValues, List.map_cons, List.map_cons, ih, hf]
  | other n rest hn ih => rw [withValues_other hn, List.map_cons, List.map_cons, ih]

theorem setDeclared?_eq_none {property : Text} (value : Text) {nodes : List Node}
    (h : property ∉ propertiesIn nodes) : setDeclared? property value nodes = none := by
  induction nodes using declarationInduction with
  | nil => rfl
  | declaration p v layout rest ih =>
    have hp : property ∉ p :: propertiesIn rest := h
    rw [List.mem_cons, not_or] at hp
    rw [setDeclared?, if_neg fun e => hp.1 e.symm, ih hp.2]
    rfl
  | other n rest hn ih =>
    rw [propertiesIn_other hn] at h
    rw [setDeclared?_other hn, ih h]
    rfl

/-- Setting one more value is the same as having known it from the start. -/
theorem setDeclared?_withValues {property : Text} (value : Text) {value? : Text → Option Text}
    (hv : value? property = none) {nodes : List Node} (h : property ∈ propertiesIn nodes)
    (behind : List Node) :
    setDeclared? property value (withValues value? nodes ++ behind) =
      some (withValues (fun p => if p = property then some value else value? p) nodes ++ behind) := by
  induction nodes using declarationInduction generalizing value? with
  | nil => cases h
  | declaration p v layout rest ih =>
    by_cases e : p = property
    · subst e
      have hf : (fun q => if q = p then none else if q = p then some value else value? q) =
          fun q => if q = p then none else value? q := by
        funext q
        split <;> simp_all
      simp [withValues, setDeclared?, hf]
    · have hr : property ∈ propertiesIn rest := by
        have hm : property ∈ p :: propertiesIn rest := h
        exact (List.mem_cons.mp hm).resolve_left fun e' => e e'.symm
      have hv' : (fun q => if q = p then none else value? q) property = none := by simp [hv]
      have hf : (fun q => if q = property then some value
            else (fun q => if q = p then none else value? q) q) =
          fun q => if q = p then none else if q = property then some value else value? q := by
        funext q
        by_cases hq : q = p
        · simp [hq, e]
        · simp [hq]
      rw [withValues, List.cons_append, setDeclared?, if_neg e, ih hv' hr, hf, withValues, if_neg e]
      rfl
  | other n rest hn ih =>
    rw [propertiesIn_other hn] at h
    rw [withValues_other hn, withValues_other hn, List.cons_append, setDeclared?_other hn, ih hv h]
    rfl

theorem withValues_congr {value? value?' : Text → Option Text} {nodes : List Node}
    (h : ∀ p ∈ propertiesIn nodes, value? p = value?' p) :
    withValues value? nodes = withValues value?' nodes := by
  induction nodes using declarationInduction generalizing value? value?' with
  | nil => rfl
  | declaration property value layout rest ih =>
    have hp : value? property = value?' property := h property (List.mem_cons_self ..)
    have hr : ∀ p ∈ propertiesIn rest, value? p = value?' p :=
      fun p hm => h p (List.mem_cons_of_mem _ hm)
    have ht : withValues (fun p => if p = property then none else value? p) rest =
        withValues (fun p => if p = property then none else value?' p) rest := by
      apply ih
      intro p hm
      split
      · rfl
      · exact hr p hm
    rw [withValues, withValues, hp, ht]
  | other n rest hn ih =>
    rw [propertiesIn_other hn] at h
    rw [withValues_other hn, withValues_other hn, ih h]

theorem withValues_none (nodes : List Node) : withValues (fun _ => none) nodes = nodes := by
  induction nodes using declarationInduction with
  | nil => rfl
  | declaration property value layout rest ih =>
    have hf : (fun p => if p = property then none else (none : Option Text)) = fun _ => none := by
      funext p
      split <;> rfl
    rw [withValues, hf, ih]
    rfl
  | other n rest h ih => rw [withValues_other h, ih]

def undeclared (nodes : List Node) (entries : List (Text × Text)) : List (Text × Text) :=
  entries.filter fun e => !(propertiesIn nodes).contains e.1

/-- The nodes after entries were merged into them: the first declaration of each property has its
new value, and the other entries stand behind all nodes. -/
def mergedWith (indent : Option Text) (entries : List (Text × Text)) (nodes : List Node) :
    List Node :=
  withValues (fun property => entries.lookup property) nodes ++
    (undeclared nodes entries).map fun e => newEntry indent e.1 e.2

def Binding.entry (b : Binding) : Text × Text := (b.name, b.value)

theorem map_fst_entry (bs : List Binding) : (bs.map Binding.entry).map Prod.fst = bs.map Binding.name := by
  rw [List.map_map]
  rfl

section
variable {entries : List (Text × Text)}

theorem lookup_eq_none {property : Text} (h : property ∉ entries.map Prod.fst) :
    entries.lookup property = none := by
  rw [List.lookup_eq_none_iff]
  intro e he
  rw [bne_iff_ne]
  rintro rfl
  exact h (List.mem_map_of_mem he)

theorem lookup_of_mem (h : (entries.map Prod.fst).Nodup) {e : Text × Text} (he : e ∈ entries) :
    entries.lookup e.1 = some e.2 := by
  induction entries with
  | nil => cases he
  | cons d entries ih =>
    obtain ⟨hd, hn⟩ := List.nodup_cons.mp h
    rcases List.mem_cons.mp he with rfl | he
    · rw [List.lookup_cons, beq_self_eq_true]
    · have hne : (e.1 == d.1) = false := by
        rw [beq_eq_false_iff_ne]
        intro e'
        exact hd (e' ▸ List.mem_map_of_mem he)
      rw [List.lookup_cons, hne]
      exact ih hn he

theorem mem_of_lookup {name value : Text}
    (h : entries.lookup name = some value) : (name, value) ∈ entries := by
  induction entries with
  | nil => cases h
  | cons e entries ih =>
    rw [List.lookup_cons] at h
    split at h
    · next hn =>
      cases h
      rw [beq_iff_eq.mp hn]
      exact List.mem_cons_self ..
    · exact List.mem_cons_of_mem _ (ih h)

theorem lookup_append_singleton {e : Text × Text} (h : e.1 ∉ entries.map Prod.fst) :
    (fun property => (entries ++ [e]).lookup property) =
      fun property => if property = e.1 then some e.2 else entries.lookup property := by
  funext property
  rw [List.lookup_append, List.lookup_cons]
  by_cases hp : property = e.1
  · rw [if_pos hp, hp, lookup_eq_none h, beq_self_eq_true]
    rfl
  · rw [if_neg hp, beq_eq_false_iff_ne.mpr hp]
    exact Option.or_none

end

/-- What merging makes of the children of a block, and whether it adds to them. -/
theorem mergeAll_eq (indent : Option Text) (nodes : List Node) {bs : List Binding}
    (h : (bs.map Binding.name).Nodup) :
    bs.foldl (mergeBinding indent) (nodes, false) =
      (mergedWith indent (bs.map Binding.entry) nodes,
        !(undeclared nodes (bs.map Binding.entry)).isEmpty) := by
  -- From the back, since each binding is merged into what the ones before it have left.
  induction bs using List.reverseRecOn with
  | nil =>
    have hv : withValues (fun property => ([] : List (Text × Text)).lookup property) nodes = nodes :=
      withValues_none nodes
    rw [List.foldl_nil, List.map_nil, mergedWith, hv]
    exact congrArg (·, false) (List.append_nil nodes).symm
  | append_singleton bs b ih =>
    rw [List.map_append, List.nodup_append] at h
    obtain ⟨hn, _, hd⟩ := h
    have hb : b.entry.1 ∉ (bs.map Binding.entry).map Prod.fst := by
      rw [map_fst_entry]
      exact fun hm => hd _ hm b.name (by simp) rfl
    rw [List.foldl_append, ih hn, List.map_append, List.map_singleton, mergedWith, mergedWith,
      lookup_append_singleton hb]
    by_cases hp : b.name ∈ propertiesIn nodes
    · have hu : undeclared nodes (bs.map Binding.entry ++ [b.entry]) =
          undeclared nodes (bs.map Binding.entry) := by
        simp [undeclared, Binding.entry, hp]
      have hs := @setDeclared?_withValues b.name b.value
        (fun property => (bs.map Binding.entry).lookup property) (lookup_eq_none hb) nodes hp
        ((undeclared nodes (bs.map Binding.entry)).map fun e => newEntry indent e.1 e.2)
      simp only [List.foldl_cons, List.foldl_nil, mergeBinding, hs, hu]
      rfl
    · have hu : undeclared nodes (bs.map Binding.entry ++ [b.entry]) =
          undeclared nodes (bs.map Binding.entry) ++ [b.entry] := by
        simp [undeclared, Binding.entry, hp]
      have hs : setDeclared? b.name b.value (withValues (fun property =>
          (bs.map Binding.entry).lookup property) nodes ++
            (undeclared nodes (bs.map Binding.entry)).map fun e => newEntry indent e.1 e.2) = none := by
        apply setDeclared?_eq_none
        rw [propertiesIn_append, propertiesIn_withValues, List.mem_append, not_or, propertiesIn,
          propertiesIn, declarationsIn_newEntries]
        refine ⟨hp, ?_⟩
        intro hm
        exact hb ((List.filter_sublist.map Prod.fst).mem hm)
      have hv : withValues (fun property => if property = b.entry.1 then some b.entry.2
            else (bs.map Binding.entry).lookup property) nodes =
          withValues (fun property => (bs.map Binding.entry).lookup property) nodes := by
        apply withValues_congr
        intro p hm
        rw [if_neg]
        rintro rfl
        exact hp hm
      simp only [List.foldl_cons, List.foldl_nil, mergeBinding, hs, hu, hv, List.map_append,
        List.append_assoc, List.map_singleton]
      simp [Binding.entry]

theorem lookup_withValues {value? : Text → Option Text} {property value : Text}
    (hv : value? property = some value) {nodes : List Node} (h : property ∈ propertiesIn nodes) :
    (declarationsIn (withValues value? nodes)).lookup property = some value := by
  induction nodes using declarationInduction generalizing value? with
  | nil => cases h
  | declaration p v layout rest ih =>
    have hd : declarationsIn (withValues value? (.leaf (.declaration p v) layout :: rest)) =
        (p, (value? p).getD v) ::
          declarationsIn (withValues (fun q => if q = p then none else value? q) rest) := rfl
    rw [hd, List.lookup_cons]
    by_cases e : property = p
    · simp [← e, hv]
    · have hr : property ∈ propertiesIn rest := by
        have hm : property ∈ p :: propertiesIn rest := h
        exact (List.mem_cons.mp hm).resolve_left e
      rw [beq_eq_false_iff_ne.mpr e]
      exact ih (by rw [if_neg e, hv]) hr
  | other n rest hn ih =>
    rw [propertiesIn_other hn] at h
    rw [withValues_other hn, declarationsIn_other hn]
    exact ih hv h

theorem lookup_mergedWith (indent : Option Text) (nodes : List Node)
    {entries : List (Text × Text)} (h : (entries.map Prod.fst).Nodup) {e : Text × Text}
    (he : e ∈ entries) :
    (declarationsIn (mergedWith indent entries nodes)).lookup e.1 = some e.2 := by
  rw [mergedWith, declarationsIn_append, List.lookup_append, declarationsIn_newEntries]
  by_cases hm : e.1 ∈ propertiesIn nodes
  · rw [lookup_withValues (lookup_of_mem h he) hm]
    rfl
  · have hu : e ∈ undeclared nodes entries :=
      List.mem_filter.mpr ⟨he, by simpa using hm⟩
    have hn : ((undeclared nodes entries).map Prod.fst).Nodup := h.sublist (List.filter_sublist.map _)
    have hl : e.1 ∉ (declarationsIn (withValues (fun property => entries.lookup property)
        nodes)).map Prod.fst := by
      rw [← propertiesIn, propertiesIn_withValues]
      exact hm
    rw [lookup_eq_none hl, Option.none_or]
    exact lookup_of_mem hn hu

theorem prune_withValues (name : Text) (value? : Text → Option Text) (nodes : List Node) :
    prune name (withValues value? nodes) = withValues value? (prune name nodes) := by
  induction nodes using declarationInduction generalizing value? with
  | nil => rfl
  | declaration property value layout rest ih =>
    have h : ∀ v, (Node.leaf (.declaration property v) layout).isAtRule name = false :=
      fun _ => rfl
    rw [withValues, prune, h, prune, h, ih]
    rfl
  | other n rest hn ih =>
    have hp : (n.pruned name).declaration? = none := by
      rw [← hn]
      cases n <;> rfl
    rw [withValues_other hn, prune, prune, ih]
    split
    · rfl
    · rw [withValues_other hp]

theorem prune_newEntries (name : Text) (indent : Option Text) (entries : List (Text × Text)) :
    prune name (entries.map fun e => newEntry indent e.1 e.2) =
      entries.map fun e => newEntry indent e.1 e.2 := by
  induction entries with
  | nil => rfl
  | cons e entries ih =>
    have h : (newEntry indent e.1 e.2).isAtRule name = false := rfl
    rw [List.map_cons, prune, h, ih]
    rfl

theorem prune_append (name : Text) (ms ns : List Node) :
    prune name (ms ++ ns) = prune name ms ++ prune name ns := by
  rw [prune_eq_map, prune_eq_map, prune_eq_map, List.filter_append, List.map_append]

theorem prune_mergedWith (name : Text) (indent : Option Text) (entries : List (Text × Text))
    (nodes : List Node) :
    prune name (mergedWith indent entries nodes) = mergedWith indent entries (prune name nodes) := by
  have hu : undeclared (prune name nodes) entries = undeclared nodes entries := by
    rw [undeclared, propertiesIn, declarationsIn_prune, ← propertiesIn, ← undeclared]
  rw [mergedWith, mergedWith, prune_append, prune_withValues, prune_newEntries, hu]

end StyleValues
