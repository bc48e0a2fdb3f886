import StyleValues.Interchange.Selector
import StyleValues.Proofs.Text.Trimming

/-!
# Selectors read back

The selector of a new import block names the path that it was made for,
whatever characters the path has, and no selector is that of an import and of
an export block at once.
-/

set_option autoImplicit false

namespace StyleValues

open Text

theorem behind?_append (start s : Text) : behind? start (start ++ s) = some s := by
  rw [behind?, if_pos (List.isPrefixOf_iff_prefix.mpr (List.prefix_append start s)),
    List.drop_left]

theorem inFrontOf?_append (c : Char) (s : Text) : inFrontOf? c (s ++ [c]) = some s := by
  rw [inFrontOf?, if_pos List.getLast?_concat, List.dropLast_concat]

theorem eq_of_behind? {start s t : Text} (h : behind? start s = some t) : s = start ++ t := by
  obtain ⟨hp, ht⟩ := Option.ite_none_right_eq_some.mp h
  obtain ⟨tail, rfl⟩ := List.isPrefixOf_iff_prefix.mp hp
  rw [← Option.some.inj ht, List.drop_left]

theorem eq_of_inFrontOf? {c : Char} {s t : Text} (h : inFrontOf? c s = some t) : s = t ++ [c] := by
  obtain ⟨hl, ht⟩ := Option.ite_none_right_eq_some.mp h
  obtain ⟨init, rfl⟩ := List.getLast?_eq_some_iff.mp hl
  rw [← Option.some.inj ht, List.dropLast_concat]

theorem unquoted?_between (quote : Char) (s : Text) :
    unquoted? quote (quote :: (s ++ [quote])) = some s := by
  have hb : behind? [quote] (quote :: (s ++ [quote])) = some (s ++ [quote]) :=
    behind?_append [quote] (s ++ [quote])
  rw [unquoted?, hb, Option.bind_some, inFrontOf?_append]

theorem unquoted?_of_ne {quote c : Char} (h : c ≠ quote) (s : Text) :
    unquoted? quote (c :: s) = none := by
  have hp : ¬ [quote].isPrefixOf (c :: s) := by
    simp [List.isPrefixOf, h.symm]
  rw [unquoted?, behind?, if_neg hp, Option.bind_none]

/-- A path between quotes of the kind that `importSelector` puts is found again. -/
theorem normalizePath_quoted {quote : Char} (h : quote = '\'' ∨ quote = '"') (path : Text) :
    normalizePath (quote :: (path ++ [quote])) = path := by
  have hb : isBlank quote = false := by
    rcases h with rfl | rfl <;> decide
  have ht : trim (quote :: (path ++ [quote])) = quote :: (path ++ [quote]) := by
    apply trim_eq_self
    · intro c hc
      cases hc
      exact hb
    · intro c hc
      rw [← List.cons_append, List.getLast?_concat] at hc
      cases hc
      exact hb
  rw [normalizePath, ht]
  rcases h with rfl | rfl
  · rw [unquoted?_between]
    rfl
  · rw [unquoted?_of_ne (by decide), unquoted?_between]
    rfl

theorem normalizePath_sublist (path : Text) : (normalizePath path).Sublist path := by
  have ht := trim_sublist path
  have hu : ∀ (quote : Char) (s t : Text), unquoted? quote s = some t → t.Sublist s := by
    intro quote s t h
    obtain ⟨inner, hb, hi⟩ := Option.bind_eq_some_iff.mp h
    rw [eq_of_behind? hb, eq_of_inFrontOf? hi]
    exact (List.sublist_append_left t [quote]).trans (List.sublist_append_right [quote] _)
  rw [normalizePath]
  cases hs : unquoted? '\'' (trim path) with
  | some inner => exact (hu _ _ _ hs).trans ht
  | none =>
    cases hd : unquoted? '"' (trim path) with
    | some inner => exact (hu _ _ _ hd).trans ht
    | none => exact ht

theorem length_of_importPath? {selector path : Text} (h : importPath? selector = some path) :
    path.length + 9 ≤ selector.length := by
  obtain ⟨inner, hi, rfl⟩ := Option.map_eq_some_iff.mp h
  obtain ⟨behind, hb, hf⟩ := Option.bind_eq_some_iff.mp hi
  have ht := (trim_sublist selector).length_le
  have hn := (normalizePath_sublist inner).length_le
  have hl : ":import(".toList.length = 8 := rfl
  rw [eq_of_behind? hb, eq_of_inFrontOf? hf, List.length_append, List.length_append,
    List.length_singleton, hl] at ht
  omega

def pathQuote (path : Text) : Char := if path.contains '\'' then '"' else '\''

theorem pathQuote_eq (path : Text) : pathQuote path = '\'' ∨ pathQuote path = '"' := by
  rw [pathQuote]
  split
  · exact Or.inr rfl
  · exact Or.inl rfl

theorem importSelector_eq (path : Text) : importSelector path =
    ":import(".toList ++ (pathQuote path :: (path ++ [pathQuote path]) ++ [')']) := by
  rw [List.cons_append, List.append_assoc]
  rfl

theorem trim_importSelector (path : Text) : trim (importSelector path) = importSelector path := by
  have hc : ":import(".toList = ':' :: "import(".toList := by decide
  rw [importSelector_eq]
  apply trim_eq_self
  · intro c h
    rw [hc, List.cons_append, List.head?_cons] at h
    rw [← Option.some.inj h]
    decide
  · intro c h
    rw [← List.append_assoc, List.getLast?_concat] at h
    rw [← Option.some.inj h]
    decide

theorem importPath?_importSelector (path : Text) : importPath? (importSelector path) = some path := by
  rw [importPath?, trim_importSelector, importSelector_eq, behind?_append, Option.bind_some,
    inFrontOf?_append, Option.map_some, normalizePath_quoted (pathQuote_eq path)]

theorem importPath?_of_isExportSelector {selector : Text} (h : isExportSelector selector) :
    importPath? selector = none := by
  have ht : trim selector = exportSelector := by simpa [isExportSelector] using h
  rw [importPath?, ht]
  rfl

theorem isExportSelector_importSelector (path : Text) :
    isExportSelector (importSelector path) = false := by
  rw [Bool.eq_false_iff]
  intro h
  have hn := importPath?_of_isExportSelector h
  rw [importPath?_importSelector] at hn
  cases hn

theorem isExportSelector_exportSelector : isExportSelector exportSelector = true := by decide

end StyleValues
