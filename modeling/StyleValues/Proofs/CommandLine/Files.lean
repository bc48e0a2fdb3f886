import Mathlib.Data.List.Basic
import StyleValues.CommandLine.Disk

/-!
# Files that are written

A file is put where its directory is there already, so no directory comes or
goes with it, and every path that could be written before can be written still,
at the same place. Several files that are written one after the other stay out
of each other's way as long as their places differ.
-/

set_option autoImplicit false

namespace StyleValues.Disk

/-- The same directories, and the same files but for some places. -/
structure Agrees (but : Place → Prop) (before after : Disk) : Prop where
  here : after.here = before.here
  isDirectory : ∀ place, after.isDirectory place = before.isDirectory place
  content? : ∀ place, ¬ but place → after.content? place = before.content? place

def Leads (d : Disk) (paths : List Text) (place : Place) : Prop :=
  ∃ path ∈ paths, d.target path = .ok place

def Apart (d : Disk) (path other : Text) : Prop :=
  ∀ place, d.target path = .ok place → d.target other ≠ .ok place

/-! ### Directories -/

section
variable {d : Disk} {place : Place}

theorem isDirectory_iff : d.isDirectory place ↔
    place <+: d.here ∨ ∃ file ∈ d.files, place <+: file.1 ∧ place ≠ file.1 := by
  simp [isDirectory]

theorem isDirectory_above {above : Place} (h : d.isDirectory place) (hp : above <+: place) :
    d.isDirectory above := by
  rw [isDirectory_iff] at h ⊢
  rcases h with h | ⟨file, hf, habove, hne⟩
  · exact .inl (hp.trans h)
  · refine .inr ⟨file, hf, hp.trans habove, ?_⟩
    rintro rfl
    exact hne (habove.eq_of_length_le hp.length_le)

theorem enter_cases (h : d.isDirectory place) (name : Text) :
    d.isDirectory (place.enter name) ∨ place.enter name = place ++ [name] := by
  rw [Place.enter]
  split
  · exact .inl h
  · split
    · exact .inl (isDirectory_above h (List.dropLast_prefix place))
    · exact .inr rfl

theorem follow_cases {names : List Text} (hn : names ≠ []) {start : Place}
    (h : d.follow start names = .ok place) :
    d.isDirectory place ∨ ∃ parent name, place = parent ++ [name] ∧ d.isDirectory parent := by
  induction names generalizing start with
  | nil => exact absurd rfl hn
  | cons name rest ih =>
    rw [follow] at h
    split at h
    · next hd =>
      by_cases hr : rest = []
      · subst hr
        cases h
        rcases enter_cases hd name with he | he
        · exact .inl he
        · exact .inr ⟨start, name, he, hd⟩
      · exact ih hr h
    · split at h <;> cases h

theorem pathNames_ne_nil (path : Text) : pathNames path ≠ [] := by
  induction path with
  | nil => exact List.cons_ne_nil _ _
  | cons c path ih =>
    rw [pathNames]
    split
    · exact List.cons_ne_nil _ _
    · obtain ⟨name, rest, he⟩ := List.exists_cons_of_ne_nil ih
      rw [he]
      exact List.cons_ne_nil _ _

theorem target_eq_ok_iff {path : Text} : d.target path = .ok place ↔
    d.locate (path.reverse.dropWhile (· == '/')).reverse = .ok place ∧
      path.getLast? ≠ some '/' ∧ d.isDirectory place = false := by
  rw [target]
  cases d.locate (path.reverse.dropWhile (· == '/')).reverse with
  | error fault => exact iff_of_false nofun fun h => nomatch h.1
  | ok found =>
    simp only [Except.bind, Except.ok.injEq]
    split
    · next hno =>
      refine iff_of_false nofun ?_
      rintro ⟨rfl, hlast, hdir⟩
      rcases hno with hno | hno
      · exact hlast hno
      · rw [hdir] at hno
        cases hno
    · next hyes =>
      rw [not_or, Bool.not_eq_true] at hyes
      constructor
      · intro h
        cases h
        exact ⟨rfl, hyes⟩
      · rintro ⟨rfl, -⟩
        rfl

theorem parent_of_target {path : Text} (h : d.target path = .ok place) :
    ∃ parent name, place = parent ++ [name] ∧ d.isDirectory parent := by
  obtain ⟨hlocate, -, hfile⟩ := target_eq_ok_iff.mp h
  refine (follow_cases (pathNames_ne_nil _) hlocate).resolve_left ?_
  rw [hfile]
  exact Bool.false_ne_true

end

/-! ### Agreement -/

section
variable {but : Place → Prop} {d d' d'' : Disk} {place : Place}

theorem Agrees.refl (but : Place → Prop) (d : Disk) : d.Agrees but d :=
  ⟨rfl, fun _ => rfl, fun _ _ => rfl⟩

theorem Agrees.trans (h : d.Agrees but d') (h' : d'.Agrees but d'') : d.Agrees but d'' where
  here := h'.here.trans h.here
  isDirectory place := (h'.isDirectory place).trans (h.isDirectory place)
  content? place hn := (h'.content? place hn).trans (h.content? place hn)

theorem Agrees.mono {but' : Place → Prop} (h : d.Agrees but d')
    (hb : ∀ place, but place → but' place) : d.Agrees but' d' where
  here := h.here
  isDirectory := h.isDirectory
  content? place hn := h.content? place fun hp => hn (hb place hp)

theorem Agrees.follow_eq_ok_iff (h : d.Agrees but d') {start : Place} {names : List Text} :
    d'.follow start names = .ok place ↔ d.follow start names = .ok place := by
  induction names generalizing start with
  | nil => exact Iff.rfl
  | cons name rest ih =>
    rw [follow, follow, h.isDirectory]
    split
    · exact ih
    · refine iff_of_false ?_ ?_
      · split <;> exact nofun
      · split <;> exact nofun

theorem Agrees.locate_eq_ok_iff (h : d.Agrees but d') {path : Text} :
    d'.locate path = .ok place ↔ d.locate path = .ok place := by
  rw [locate, locate, h.here]
  exact h.follow_eq_ok_iff

/-- Where a file is written depends on the directories alone. -/
theorem Agrees.target_eq_ok_iff (h : d.Agrees but d') {path : Text} :
    d'.target path = .ok place ↔ d.target path = .ok place := by
  rw [Disk.target_eq_ok_iff, Disk.target_eq_ok_iff, h.locate_eq_ok_iff, h.isDirectory]

theorem Agrees.leads_iff (h : d.Agrees but d') {paths : List Text} :
    d'.Leads paths place ↔ d.Leads paths place :=
  exists_congr fun _ => and_congr_right fun _ => h.target_eq_ok_iff

theorem Agrees.apart_iff (h : d.Agrees but d') {path other : Text} :
    d'.Apart path other ↔ d.Apart path other :=
  forall_congr' fun _ => imp_congr h.target_eq_ok_iff (not_congr h.target_eq_ok_iff)

theorem agrees_put {path : Text} (h : d.target path = .ok place) (content : Content) :
    d.Agrees (· = place) (d.put place content) := by
  obtain ⟨parent, name, rfl, hparent⟩ := parent_of_target h
  refine ⟨rfl, ?_, fun other hne => content?_put_of_ne d content hne⟩
  intro other
  rw [Bool.eq_iff_iff, isDirectory_iff, isDirectory_iff]
  constructor
  · rintro (hhere | ⟨file, hf, hp, hne⟩)
    · exact .inl hhere
    · rcases List.mem_cons.mp hf with rfl | hf
      · -- What leads to the new file leads to the directory that it is put in.
        have habove : other <+: parent := by
          rcases List.prefix_concat_iff.mp hp with he | hpre
          · exact absurd he hne
          · exact hpre
        exact isDirectory_iff.mp (isDirectory_above hparent habove)
      · exact .inr ⟨file, (List.mem_filter.mp hf).1, hp, hne⟩
  · rintro (hhere | ⟨file, hf, hp, hne⟩)
    · exact .inl hhere
    · by_cases he : file.1 = parent ++ [name]
      · exact .inr ⟨_, List.mem_cons_self, he ▸ hp, he ▸ hne⟩
      · refine .inr ⟨file, List.mem_cons_of_mem _ (List.mem_filter.mpr ⟨hf, ?_⟩), hp, hne⟩
        simpa using he

theorem write_eq_ok_iff {path t : Text} :
    d.write path t = .ok d' ↔ ∃ place, d.target path = .ok place ∧ d' = d.put place (.text t) := by
  rw [write]
  cases d.target path with
  | error fault => exact iff_of_false nofun fun h => nomatch h.choose_spec.1
  | ok place => simp [Except.map, eq_comm]

theorem read_of_content? {path t : Text} (h : d.target path = .ok place)
    (hc : d.content? place = some (.text t)) : d.read path = .ok t := by
  obtain ⟨hlocate, hlast, hfile⟩ := Disk.target_eq_ok_iff.mp h
  have hpath : (path.reverse.dropWhile (· == '/')).reverse = path := by
    rw [List.getLast?_eq_head?_reverse] at hlast
    rw [List.reverse_eq_iff]
    cases hr : path.reverse with
    | nil => rfl
    | cons c front =>
      rw [hr, List.head?_cons] at hlast
      have hc : ¬ (c == '/') := fun he => hlast (congrArg some (beq_iff_eq.mp he))
      exact List.dropWhile_cons_of_neg hc
  rw [hpath] at hlocate
  rw [read, hlocate]
  simp [Except.bind, readAt, hfile, hc, Content.text?]

end

end StyleValues.Disk
