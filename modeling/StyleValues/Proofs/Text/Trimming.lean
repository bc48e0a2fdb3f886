import Mathlib.Data.List.Basic
import Mathlib.Data.List.TakeWhile
import StyleValues.Proofs.Text.Runs
import StyleValues.Text.Blank

/-!
# Trimmed texts

A text is trimmed if neither its first nor its last character is white space.
Trimming leaves such texts alone and makes all others into such, and the
padding of a text is found again around a trimmed body.
-/

set_option autoImplicit false

namespace StyleValues.Text

def NoBlankStart (s : Text) : Prop := ∀ c, s.head? = some c → isBlank c = false

def NoBlankEnd (s : Text) : Prop := ∀ c, s.getLast? = some c → isBlank c = false

theorem dropWhile_eq_self {s : Text} (h : NoBlankStart s) : s.dropWhile isBlank = s := by
  cases s with
  | nil => rfl
  | cons c s => rw [List.dropWhile_cons_of_neg (by simp [h c rfl])]

theorem takeWhile_eq_nil {s : Text} (h : NoBlankStart s) : s.takeWhile isBlank = [] := by
  cases s with
  | nil => rfl
  | cons c s => rw [List.takeWhile_cons_of_neg (by simp [h c rfl])]

theorem trimEnd_eq_self {s : Text} (h : NoBlankEnd s) : trimEnd s = s := by
  have hr : NoBlankStart s.reverse := by
    intro c hc
    exact h c (by rwa [List.head?_reverse] at hc)
  rw [trimEnd, dropWhile_eq_self hr, List.reverse_reverse]

theorem trim_eq_self {s : Text} (hs : NoBlankStart s) (he : NoBlankEnd s) : trim s = s := by
  have hd : trimStart s = s := dropWhile_eq_self hs
  rw [trim, hd, trimEnd_eq_self he]

theorem noBlankStart_dropWhile (s : Text) : NoBlankStart (s.dropWhile isBlank) := by
  intro c hc
  have := List.head?_dropWhile_not isBlank s
  rw [hc] at this
  simpa using this

theorem noBlankEnd_trimEnd (s : Text) : NoBlankEnd (trimEnd s) := by
  intro c hc
  rw [trimEnd, List.getLast?_reverse] at hc
  exact noBlankStart_dropWhile _ c hc

theorem NoBlankStart.of_prefix {s t : Text} (h : s <+: t) (ht : NoBlankStart t) :
    NoBlankStart s := by
  obtain ⟨r, rfl⟩ := h
  intro c hc
  exact ht c (by rw [List.head?_append, hc, Option.some_or])

theorem noBlankStart_trimEnd {s : Text} (h : NoBlankStart s) : NoBlankStart (trimEnd s) :=
  h.of_prefix ⟨_, trimEnd_append s⟩

theorem isBlank_of_mem_trailingBlanks {s : Text} {c : Char} (h : c ∈ trailingBlanks s) :
    isBlank c :=
  List.mem_takeWhile_imp (List.mem_reverse.mp h)

theorem trimEnd_eq_nil_iff {s : Text} (h : NoBlankStart s) : trimEnd s = [] ↔ s = [] := by
  constructor
  · intro he
    have hs := trimEnd_append s
    rw [he, List.nil_append] at hs
    cases s with
    | nil => rfl
    | cons c s =>
      have hb := isBlank_of_mem_trailingBlanks (s := c :: s) (c := c) (by rw [hs]; exact List.mem_cons_self)
      rw [h c rfl] at hb
      cases hb
  · rintro rfl
    rfl

theorem trimEnd_append_of_ne_nil {s t : Text} (h : trimEnd t ≠ []) :
    trimEnd (s ++ t) = s ++ trimEnd t := by
  have hn : ¬ (t.reverse.dropWhile isBlank).isEmpty := by
    rw [List.isEmpty_iff]
    intro he
    exact h (by rw [trimEnd, he, List.reverse_nil])
  rw [trimEnd, List.reverse_append, List.dropWhile_append, if_neg hn, List.reverse_append,
    List.reverse_reverse, trimEnd]

theorem trimEnd_append_blanks (s : Text) {t : Text} (h : ∀ c ∈ t, isBlank c) :
    trimEnd (s ++ t) = trimEnd s := by
  rw [trimEnd, List.reverse_append,
    List.dropWhile_append_of_pos fun c hc => h c (List.mem_reverse.mp hc), trimEnd]

theorem trim_append_blanks (s : Text) {t : Text} (h : ∀ c ∈ t, isBlank c) : trim (s ++ t) = trim s := by
  rw [trim, trim, trimStart, trimStart, List.dropWhile_append]
  split
  · next he =>
    rw [List.isEmpty_iff.mp he, List.dropWhile_eq_nil_iff.mpr h]
  · rw [trimEnd_append_blanks _ h]

theorem trim_sublist (s : Text) : (trim s).Sublist s :=
  (List.IsPrefix.sublist ⟨_, trimEnd_append _⟩).trans (List.dropWhile_sublist isBlank)

theorem trim_trim (s : Text) : trim (trim s) = trim s :=
  trim_eq_self (noBlankStart_trimEnd (noBlankStart_dropWhile s)) (noBlankEnd_trimEnd _)

theorem trim_eq_self_iff {s : Text} : trim s = s ↔ NoBlankStart s ∧ NoBlankEnd s := by
  constructor
  · intro h
    rw [← h]
    exact ⟨noBlankStart_trimEnd (noBlankStart_dropWhile s), noBlankEnd_trimEnd _⟩
  · rintro ⟨hs, he⟩
    exact trim_eq_self hs he

theorem padding_eq_self {s : Text} (hs : NoBlankStart s) (he : NoBlankEnd s) :
    padding s = ⟨[], s, []⟩ := by
  have ht : trailingBlanks s = [] := by
    have e := trimEnd_append s
    rw [trimEnd_eq_self he] at e
    exact List.append_right_eq_self.mp e
  rw [padding, dropWhile_eq_self hs, takeWhile_eq_nil hs, trimEnd_eq_self he, ht]

theorem padding_cons {s : Text} {c : Char} (hc : isBlank c) :
    padding (c :: s) = { padding s with leading := c :: (padding s).leading } := by
  rw [padding, padding, List.takeWhile_cons_of_pos hc, List.dropWhile_cons_of_pos hc]

theorem padding_around {r s t : Text} (hs : NoBlankStart s) (he : NoBlankEnd s) (hne : s ≠ [])
    (hr : ∀ c ∈ r, isBlank c) (ht : ∀ c ∈ t, isBlank c) : padding (r ++ (s ++ t)) = ⟨r, s, t⟩ := by
  induction r with
  | nil =>
    have hst : NoBlankStart (s ++ t) := by
      obtain ⟨c, s, rfl⟩ := List.exists_cons_of_ne_nil hne
      exact hs
    have htrim : trimEnd (s ++ t) = s := by
      rw [trimEnd_append_blanks s ht, trimEnd_eq_self he]
    have htrailing : trailingBlanks (s ++ t) = t := by
      have e := trimEnd_append (s ++ t)
      rw [htrim] at e
      exact List.append_cancel_left e
    rw [List.nil_append, padding, takeWhile_eq_nil hst, dropWhile_eq_self hst, htrim, htrailing]
  | cons c r ih =>
    obtain ⟨hc, hr⟩ := List.forall_mem_cons.mp hr
    rw [List.cons_append, padding_cons hc, ih hr]

theorem trim_eq_nil_iff {s : Text} : trim s = [] ↔ ∀ c ∈ s, isBlank c := by
  rw [trim, trimStart, trimEnd_eq_nil_iff (noBlankStart_dropWhile s)]
  exact List.dropWhile_eq_nil_iff

theorem NoBlankEnd.of_suffix {s t : Text} (h : s <:+ t) (ht : NoBlankEnd t) : NoBlankEnd s := by
  obtain ⟨r, rfl⟩ := h
  intro c hc
  exact ht c (by rw [List.getLast?_append, hc, Option.some_or])

theorem trim_append {s t : Text} (hs : trim s ≠ []) (ht : trimEnd t ≠ []) :
    trim (s ++ t) = trim s ++ ((padding s).trailing ++ trimEnd t) := by
  have hstart : s.dropWhile isBlank ≠ [] := by
    intro h
    exact hs (by rw [trim, trimStart, h]; rfl)
  have hcut : trimEnd (s.dropWhile isBlank) ++ trailingBlanks (s.dropWhile isBlank) =
    s.dropWhile isBlank := trimEnd_append _
  rw [trim, trim, trimStart, trimStart, List.dropWhile_append, if_neg (by rwa [List.isEmpty_iff]),
    trimEnd_append_of_ne_nil ht, padding, ← List.append_assoc, hcut]

theorem trim_append_of_trimmed {s t : Text} (hs : NoBlankEnd s) (hn : trim s ≠ []) (ht : NoBlankEnd t)
    (hne : t ≠ []) : trim (s ++ t) = trim s ++ t := by
  have hsuffix : NoBlankEnd (s.dropWhile isBlank) := hs.of_suffix (List.dropWhile_suffix _)
  have htrailing : (padding s).trailing = [] := by
    have e := trimEnd_append (s.dropWhile isBlank)
    rw [trimEnd_eq_self hsuffix] at e
    exact List.append_right_eq_self.mp e
  rw [trim_append hn (by rwa [trimEnd_eq_self ht]), htrailing, trimEnd_eq_self ht, List.nil_append]

/-- What has no white space at its ends does not lose a place in a text that is trimmed. -/
theorem infix_trim_iff {pattern s : Text} (hs : NoBlankStart pattern) (he : NoBlankEnd pattern) :
    pattern <:+: trim s ↔ pattern <:+: s := by
  constructor
  · intro h
    exact h.trans (List.IsInfix.trans ⟨[], _, trimEnd_append _⟩ (List.dropWhile_suffix _).isInfix)
  · rintro ⟨left, right, rfl⟩
    by_cases hn : pattern = []
    · subst hn
      exact List.nil_infix
    have hstart : ∃ left', trimStart (left ++ pattern ++ right) = left' ++ pattern ++ right := by
      have hp : (pattern ++ right).dropWhile isBlank = pattern ++ right := by
        apply dropWhile_eq_self
        intro c hc
        rw [List.head?_append_of_ne_nil _ hn] at hc
        exact hs c hc
      rw [trimStart, List.append_assoc, List.dropWhile_append]
      split
      · exact ⟨[], by rw [hp]; rfl⟩
      · exact ⟨left.dropWhile isBlank, (List.append_assoc ..).symm⟩
    obtain ⟨left', hl⟩ := hstart
    rw [trim, hl]
    by_cases hr : trimEnd right = []
    · have hb : ∀ c ∈ right, isBlank c := by
        have e := trimEnd_append right
        rw [hr, List.nil_append] at e
        rw [← e]
        exact fun c hc => isBlank_of_mem_trailingBlanks hc
      have hend : NoBlankEnd (left' ++ pattern) := by
        intro c hc
        rw [List.getLast?_append_of_ne_nil _ hn] at hc
        exact he c hc
      rw [trimEnd_append_blanks _ hb, trimEnd_eq_self hend]
      exact (List.suffix_append ..).isInfix
    · rw [trimEnd_append_of_ne_nil hr]
      exact List.infix_append ..

/-- Trimmed texts in the place of runs keep a trimmed text such. -/
theorem trim_mapRuns {q : Char → Bool} {f : Text → Text} {s : Text} (hf : f [] = [])
    (h : ∀ w ∈ runs q s, f w ≠ [] ∧ trim (f w) = f w) (hs : trim s = s) :
    trim (mapRuns q f s) = mapRuns q f s := by
  have hne : ∀ w ∈ runs q s, f w ≠ [] := fun w hw => (h w hw).1
  obtain ⟨hstart, hend⟩ := trim_eq_self_iff.mp hs
  rw [trim_eq_self_iff]
  constructor
  · rcases head?_mapRuns hf hne with ⟨w, hw, -, he⟩ | ⟨-, he⟩
    · rw [NoBlankStart, he]
      exact (trim_eq_self_iff.mp (h w hw).2).1
    · rw [NoBlankStart, he]
      exact hstart
  · rcases getLast?_mapRuns hf hne with ⟨w, hw, he⟩ | he
    · rw [NoBlankEnd, he]
      exact (trim_eq_self_iff.mp (h w hw).2).2
    · rw [NoBlankEnd, he]
      exact hend

end StyleValues.Text
