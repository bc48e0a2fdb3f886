import StyleValues.Proofs.Interchange.PlainEntries
import StyleValues.Proofs.Sheet.Passing
import StyleValues.Proofs.Substitution.Identifiers

/-!
# Values that stand for words

Some texts can be written wherever a word can be written: they leave open what
a word leaves open, have no white space around them and begin neither an
at-rule nor a comment. If all values are such texts, then what substitution and
redirects make of such a text is one again.
-/

set_option autoImplicit false

namespace StyleValues

open Text

def leadMarks : List Char := ['@', '/', '*']

/-- A text that can stand for a word. -/
structure Wordlike (s : Text) : Prop where
  seamless : Reading.Seamless s
  trimmed : trim s = s
  start : ∀ c ∈ s.head?, c ∉ leadMarks

section
variable {s : Text}

theorem wordlike_of_neutral (hne : s ≠ []) (hs : Neutral s) (ht : trim s = s)
    (hat : s.head? ≠ some '@') : Wordlike s := by
  refine ⟨Reading.seamless_of_neutral hne hs, ht, ?_⟩
  intro c hc hm
  simp only [leadMarks, List.mem_cons, List.not_mem_nil, or_false] at hm
  rcases hm with rfl | rfl | rfl
  · exact hat hc
  · exact hs _ (List.mem_of_head? hc) (by decide)
  · exact hs _ (List.mem_of_head? hc) (by decide)

theorem wordlike_of_tokens (hne : s ≠ []) (h : ∀ c ∈ s, isTokenChar c) : Wordlike s := by
  have hb : ∀ c ∈ s, isBlank c = false := by
    intro c hc
    rw [Bool.eq_false_iff]
    intro hblank
    have hn := isNameChar_of_isBlank hblank
    have ht := h c hc
    rw [isNameChar, Bool.or_eq_false_iff, Bool.or_eq_false_iff] at hn
    rw [isTokenChar, hn.1.1, hn.1.2, hn.2] at ht
    simp only [Bool.false_or, Bool.or_eq_true, beq_iff_eq] at ht
    rcases ht with rfl | rfl <;> cases hblank
  refine wordlike_of_neutral hne (Reading.neutral_of_tokens h) (trim_eq_self
    (fun c hc => hb c (List.mem_of_head? hc)) fun c hc => hb c (List.mem_of_getLast? hc)) ?_
  intro hat
  cases h _ (List.mem_of_head? hat)

theorem Identifier.wordlike (h : Identifier s) : Wordlike s :=
  wordlike_of_tokens h.1 fun c hc => isTokenChar_of_isNameChar (h.2 c hc)

theorem Wordlike.call {t : Text} (hs : Wordlike s) (ht : Wordlike t) :
    Wordlike (s ++ '(' :: (t ++ [')'])) := by
  have hne := hs.seamless.ne_nil
  have hend : NoBlankEnd (s ++ '(' :: (t ++ [')'])) := by
    have hl : s ++ '(' :: (t ++ [')']) = s ++ '(' :: t ++ [')'] := by simp
    intro c hc
    rw [hl, List.getLast?_concat] at hc
    cases hc
    rfl
  refine ⟨hs.seamless.call ht.seamless, trim_eq_self ?_ hend, ?_⟩
  · rw [NoBlankStart, List.head?_append_of_ne_nil _ hne]
    exact (trim_eq_self_iff.mp hs.trimmed).1
  · rw [List.head?_append_of_ne_nil _ hne]
    exact hs.start

example : Wordlike "calc(a - 2px)".toList :=
  (wordlike_of_tokens (s := "calc".toList) (by decide) (List.all_eq_true.mp rfl)).call
    (wordlike_of_neutral (s := "a - 2px".toList) (by decide)
      (neutral_of_all (p := fun c => !readingMarks.contains c) rfl (List.all_eq_true.mp rfl)) rfl
      (by decide))

theorem Wordlike.plainValue (h : Wordlike s) : PlainValue s := by
  obtain ⟨hstart, hend⟩ := trim_eq_self_iff.mp h.trimmed
  exact ⟨hstart, hend, h.seamless.selfContained⟩

/-- Such texts in the place of runs make such a text of one. -/
theorem Wordlike.mapRuns {q : Char → Bool} {f : Text → Text} (hq : readingMarks.all fun c => !q c)
    (hf : f [] = []) (hs : Wordlike s) (h : ∀ w ∈ runs q s, Wordlike (f w)) :
    Wordlike (mapRuns q f s) := by
  refine ⟨.mapRuns hq hf hs.seamless fun w hw => (h w hw).seamless,
    trim_mapRuns hf (fun w hw => ⟨(h w hw).seamless.ne_nil, (h w hw).trimmed⟩) hs.trimmed, ?_⟩
  rcases head?_mapRuns hf fun w hw => (h w hw).seamless.ne_nil with ⟨w, hw, -, he⟩ | ⟨-, he⟩
  · rw [he]
    exact (h w hw).start
  · rw [he]
    exact hs.start

/-! ### Substitution -/

theorem Wordlike.substitute (hs : Wordlike s) {lookup : Text → Option Text}
    (hv : ∀ t value, lookup t = some value → Wordlike value) : Wordlike (substitute lookup s) := by
  rw [substitute_eq_mapRuns]
  refine hs.mapRuns rfl rfl fun w hw => ?_
  obtain ⟨hne, ht⟩ := mem_runs hw
  rw [substituteToken_of_ne_nil hne]
  cases hl : lookup w with
  | some value => exact hv w value hl
  | none => exact wordlike_of_tokens hne ht

end

/-! ### Redirects -/

section
variable {s identifier replacement : Text} {rs : Redirects}

theorem Wordlike.replaceIdentifier (hs : Wordlike s) (hi : ∀ c ∈ identifier, isNameChar c)
    (hv : Wordlike replacement) : Wordlike (replaceIdentifier identifier replacement s) := by
  by_cases hne : identifier = []
  · subst hne
    exact hs
  rw [replaceIdentifier_eq_mapRuns hi]
  refine hs.mapRuns rfl ?_ fun w hw => ?_
  · rw [replaceIdentifier_of_ne_nil _ hne]
    rfl
  · obtain ⟨hw, hn⟩ := mem_runs hw
    rw [replaceIdentifier_run replacement hi hne hn]
    split
    · exact hv
    · exact Identifier.wordlike ⟨hw, hn⟩

theorem Wordlike.redirect (hs : Wordlike s) (hr : rs.AreNames) (hv : ∀ e ∈ rs, Wordlike e.2) :
    Wordlike (redirect rs s) := by
  induction rs generalizing s with
  | nil => exact hs
  | cons e rs ih =>
    obtain ⟨he, hr⟩ := List.forall_mem_cons.mp hr
    obtain ⟨hw, hv⟩ := List.forall_mem_cons.mp hv
    exact ih (hs.replaceIdentifier he hw) hr hv

end

end StyleValues
