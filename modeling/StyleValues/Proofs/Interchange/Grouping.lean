import Mathlib.Data.List.Induction
import StyleValues.Interchange.Imports

/-!
# Imports grouped by path

The import blocks of a run, read off the names that were imported: there is
one block for every path, in the order in which the paths are first used. It
holds all names imported from its path with their placeholders, in the order
of the imports, and its anchor is that of the first of them.
-/

set_option autoImplicit false

namespace StyleValues

/-- One name taken from another sheet by a statement with that anchor. -/
structure ImportUse where
  path : Text
  source : Text
  name : Text
  anchor : Nat
deriving DecidableEq, Repr

def firstUses : List ImportUse → List ImportUse
  | [] => []
  | u :: rest => u :: (firstUses rest).filter fun v => v.path != u.path

/-- The uses with the placeholders that an allocator hands out for them. -/
def allot : Allocator → List ImportUse → List (ImportUse × Text)
  | _, [] => []
  | a, u :: rest => (u, (a.allocate u.name).1) :: allot (a.allocate u.name).2 rest

def entriesFor (path : Text) (allotted : List (ImportUse × Text)) : List ImportEntry :=
  (allotted.filter fun a => a.1.path == path).map fun a => ⟨a.2, a.1.source⟩

theorem map_fst_allot (a : Allocator) (us : List ImportUse) : (allot a us).map Prod.fst = us := by
  induction us generalizing a with
  | nil => rfl
  | cons u us ih => rw [allot, List.map_cons, ih]

theorem entriesFor_append (path : Text) (as bs : List (ImportUse × Text)) :
    entriesFor path (as ++ bs) = entriesFor path as ++ entriesFor path bs := by
  simp [entriesFor]

theorem firstUses_sublist (us : List ImportUse) : (firstUses us).Sublist us := by
  induction us with
  | nil => exact List.Sublist.refl _
  | cons u us ih => exact (List.filter_sublist.trans ih).cons_cons u

theorem mem_paths_firstUses {us : List ImportUse} {path : Text} :
    path ∈ (firstUses us).map ImportUse.path ↔ path ∈ us.map ImportUse.path := by
  induction us with
  | nil => rfl
  | cons u us ih =>
    by_cases h : path = u.path
    · simp [firstUses, h]
    · have hf : path ∈ ((firstUses us).filter fun v => v.path != u.path).map ImportUse.path ↔
          path ∈ (firstUses us).map ImportUse.path := by
        simp only [List.mem_map, List.mem_filter, bne_iff_ne]
        constructor
        · rintro ⟨v, ⟨hv, _⟩, e⟩
          exact ⟨v, hv, e⟩
        · rintro ⟨v, hv, e⟩
          exact ⟨v, ⟨hv, by rw [e]; exact h⟩, e⟩
      rw [firstUses, List.map_cons, List.mem_cons, hf, ih, List.map_cons, List.mem_cons]

theorem nodup_paths_firstUses (us : List ImportUse) : ((firstUses us).map ImportUse.path).Nodup := by
  induction us with
  | nil => exact List.nodup_nil
  | cons u us ih =>
    rw [firstUses, List.map_cons, List.nodup_cons]
    constructor
    · intro h
      obtain ⟨v, hv, e⟩ := List.mem_map.mp h
      have := (List.mem_filter.mp hv).2
      simp [e] at this
    · exact ih.sublist (List.filter_sublist.map _)

theorem filter_firstUses (us : List ImportUse) (path : Text) :
    (firstUses us).filter (fun u => u.path == path) =
      (us.find? fun u => u.path == path).toList := by
  induction us with
  | nil => rfl
  | cons u us ih =>
    rw [firstUses, List.filter_cons, List.filter_filter, List.find?_cons]
    by_cases e : u.path = path
    · simp [e]
    · have e' : ¬ path = u.path := fun e' => e e'.symm
      have hs : ((firstUses us).filter fun v => v.path == path && v.path != u.path) =
          (firstUses us).filter fun v => v.path == path := by
        apply List.filter_congr
        intro v _
        by_cases ev : v.path = path
        · simp [ev, e']
        · simp [ev]
      have hb : (u.path == path) = false := beq_eq_false_iff_ne.mpr e
      rw [hs, ih, hb]
      rfl

theorem firstUses_append_singleton (us : List ImportUse) (v : ImportUse) :
    firstUses (us ++ [v]) =
      firstUses us ++ if (us.map ImportUse.path).contains v.path then [] else [v] := by
  induction us with
  | nil => rfl
  | cons u us ih =>
    rw [List.cons_append, firstUses, ih, firstUses, List.filter_append, List.cons_append]
    congr 2
    by_cases h : v.path = u.path
    · by_cases hm : v.path ∈ us.map ImportUse.path
      · simp_all
      · simp_all
    · by_cases hm : v.path ∈ us.map ImportUse.path
      · simp_all
      · simp_all

theorem entriesFor_of_not_mem {path : Text} {us : List ImportUse} (a : Allocator)
    (h : path ∉ us.map ImportUse.path) : entriesFor path (allot a us) = [] := by
  rw [entriesFor, List.map_eq_nil_iff, List.filter_eq_nil_iff]
  intro p hp e
  have hu : p.1 ∈ us := by
    rw [← map_fst_allot a us]
    exact List.mem_map_of_mem hp
  exact h (List.mem_map.mpr ⟨p.1, hu, beq_iff_eq.mp e⟩)

theorem entriesFor_eq_nil_iff {path : Text} {us : List ImportUse} (a : Allocator) :
    entriesFor path (allot a us) = [] ↔ path ∉ us.map ImportUse.path := by
  constructor
  · intro h hm
    rw [entriesFor, List.map_eq_nil_iff, List.filter_eq_nil_iff] at h
    rw [← map_fst_allot a us, List.map_map, List.mem_map] at hm
    obtain ⟨p, hp, e⟩ := hm
    exact h p hp (beq_iff_eq.mpr e)
  · exact entriesFor_of_not_mem a

namespace ImportBlock

/-- An entry joins the block of its path, or opens a new one behind all others. -/
theorem addEntry_eq {fresh : ImportBlock} {entry : ImportEntry} {blocks : List ImportBlock}
    (h : (blocks.map path).Nodup) :
    fresh.addEntry entry blocks =
      if (blocks.map path).contains fresh.path then
        blocks.map fun b =>
          if b.path = fresh.path then { b with entries := b.entries ++ [entry] } else b
      else blocks ++ [{ fresh with entries := fresh.entries ++ [entry] }] := by
  induction blocks with
  | nil => rfl
  | cons b rest ih =>
    obtain ⟨hb, hr⟩ := List.nodup_cons.mp h
    by_cases e : b.path = fresh.path
    · have hm : rest.map (fun c => if c.path = fresh.path then
          { c with entries := c.entries ++ [entry] } else c) = rest := by
        conv => rhs; rw [← List.map_id rest]
        apply List.map_congr_left
        intro c hc
        have hne : c.path ≠ fresh.path := by
          intro ec
          exact hb (List.mem_map.mpr ⟨c, hc, by rw [ec, e]⟩)
        simp [hne]
      simp [addEntry, e, hm]
    · have e' : ¬ fresh.path = b.path := fun e' => e e'.symm
      have hc : ((b :: rest).map path).contains fresh.path =
          (rest.map path).contains fresh.path := by
        simp [e']
      rw [addEntry, if_neg e, ih hr, hc]
      split
      · simp [e]
      · rfl

end ImportBlock

namespace Imports

def registerUse (r : Imports) (u : ImportUse) : Imports :=
  (r.register u.path u.source u.name u.anchor).2

def registerAll (r : Imports) (us : List ImportUse) : Imports := us.foldl registerUse r

theorem registerAll_append (r : Imports) (us vs : List ImportUse) :
    r.registerAll (us ++ vs) = (r.registerAll us).registerAll vs := by
  rw [registerAll, List.foldl_append]
  rfl

def blockFor (r : Imports) (us : List ImportUse) (u : ImportUse) : ImportBlock where
  path := u.path
  entries := entriesFor u.path (allot r.allocator us)
  existing := r.existing.lookup u.path
  anchor := u.anchor

theorem declarations_blockFor (r : Imports) (us : List ImportUse) (u : ImportUse) :
    (r.blockFor us u).declarations =
      (entriesFor u.path (allot r.allocator us)).map fun e => (e.placeholder, e.source) := rfl

theorem existing_registerAll (r : Imports) (us : List ImportUse) :
    (r.registerAll us).existing = r.existing := by
  induction us generalizing r with
  | nil => rfl
  | cons u us ih => exact ih (r.registerUse u)

theorem allot_append_last (r : Imports) (us : List ImportUse) (v : ImportUse) :
    allot r.allocator (us ++ [v]) =
      allot r.allocator us ++ [(v, ((r.registerAll us).allocator.allocate v.name).1)] := by
  induction us generalizing r with
  | nil => rfl
  | cons u us ih =>
    rw [List.cons_append, allot, allot, List.cons_append]
    exact congrArg _ (ih (r.registerUse u))

theorem blockFor_append (r : Imports) (us : List ImportUse) (v u : ImportUse) :
    r.blockFor (us ++ [v]) u =
      if u.path = v.path then
        { r.blockFor us u with
          entries := (r.blockFor us u).entries ++
            [⟨((r.registerAll us).allocator.allocate v.name).1, v.source⟩] }
      else r.blockFor us u := by
  rw [blockFor, allot_append_last, entriesFor_append]
  by_cases e : u.path = v.path
  · simp [blockFor, entriesFor, e]
  · have e' : ¬ v.path = u.path := fun e' => e e'.symm
    simp [blockFor, entriesFor, e, e']

theorem blocks_registerAll {r : Imports} (h : r.blocks = []) (us : List ImportUse) :
    (r.registerAll us).blocks = (firstUses us).map (r.blockFor us) := by
  -- From the back, since a use only touches what the uses before it have left.
  induction us using List.reverseRecOn with
  | nil => exact h
  | append_singleton us v ih =>
    have hp : ((firstUses us).map (r.blockFor us)).map ImportBlock.path =
        (firstUses us).map ImportUse.path := by
      rw [List.map_map]; rfl
    have hs : (r.registerAll (us ++ [v])).blocks =
        ImportBlock.addEntry { path := v.path, existing := r.existing.lookup v.path, anchor := v.anchor }
          ⟨((r.registerAll us).allocator.allocate v.name).1, v.source⟩ (r.registerAll us).blocks := by
      rw [registerAll_append, ← existing_registerAll r us]
      rfl
    rw [hs, ih, ImportBlock.addEntry_eq (by rw [hp]; exact nodup_paths_firstUses us), hp,
      firstUses_append_singleton]
    by_cases hm : v.path ∈ us.map ImportUse.path
    · have hf := mem_paths_firstUses.mpr hm
      rw [if_pos (List.contains_iff_mem.mpr hf), if_pos (List.contains_iff_mem.mpr hm),
        List.append_nil, List.map_map]
      apply List.map_congr_left
      intro u _
      exact (blockFor_append r us v u).symm
    · have hf : v.path ∉ (firstUses us).map ImportUse.path := fun hf => hm (mem_paths_firstUses.mp hf)
      rw [if_neg (fun hc => hf (List.contains_iff_mem.mp hc)),
        if_neg (fun hc => hm (List.contains_iff_mem.mp hc)), List.map_append, List.map_singleton]
      congr 1
      · apply List.map_congr_left
        intro u hu
        have e : u.path ≠ v.path := by
          intro e
          exact hf (List.mem_map.mpr ⟨u, hu, e⟩)
        rw [blockFor_append, if_neg e]
      · rw [blockFor_append, if_pos rfl]
        simp [blockFor, entriesFor_of_not_mem r.allocator hm]

end Imports

end StyleValues
