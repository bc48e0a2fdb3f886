import Mathlib.Data.List.TakeWhile
import StyleValues.Text.Basic

/-!
# Cuts in a text

A cut behind a run of characters, or around the first occurrence of a pattern,
is made again wherever the text in front of it and the boundary stay.
-/

set_option autoImplicit false

namespace StyleValues

section
variable {p : Char → Bool} {s t : Text}

theorem takeWhile_append_of_stop (hs : ∀ c ∈ s, p c) (ht : ∀ c, t.head? = some c → p c = false) :
    (s ++ t).takeWhile p = s ∧ (s ++ t).dropWhile p = t := by
  rw [List.takeWhile_append_of_pos hs, List.dropWhile_append_of_pos hs]
  cases t with
  | nil => simp
  | cons c t => simp [ht c rfl]

theorem stop_of_dropWhile {c : Char} (h : (s.dropWhile p).head? = some c) : p c = false := by
  have hn := List.head?_dropWhile_not p s
  rw [h] at hn
  simpa using hn

end

theorem breakAt?_congr {pattern s before after : Text}
    (h : Text.breakAt? pattern s = some (before, after)) (after' : Text) :
    Text.breakAt? pattern (before ++ (pattern ++ after')) = some (before, after') := by
  induction s generalizing before with
  | nil =>
    rw [Text.breakAt?] at h
    split at h
    · next hp =>
      cases h
      rw [List.isEmpty_iff] at hp
      subst hp
      cases after' <;> rfl
    · cases h
  | cons c rest ih =>
    rw [Text.breakAt?] at h
    split at h
    · next hp =>
      cases h
      cases pattern with
      | nil => cases after' <;> rfl
      | cons d pattern =>
        have hd : (d :: pattern).isPrefixOf (d :: (pattern ++ after')) :=
          List.isPrefixOf_iff_prefix.mpr (List.prefix_append (d :: pattern) after')
        rw [List.nil_append, List.cons_append, Text.breakAt?, if_pos hd]
        simp
    · next hp =>
      obtain ⟨⟨left, right⟩, hb, he⟩ := Option.map_eq_some_iff.mp h
      cases he
      have hn : ¬ pattern.isPrefixOf (c :: (left ++ (pattern ++ after'))) := by
        intro hx
        -- Such an occurrence would end within the first one.
        apply hp
        rw [List.isPrefixOf_iff_prefix] at hx ⊢
        have hl : pattern <+: c :: (left ++ pattern) := by
          refine List.prefix_of_prefix_length_le hx ?_ (by simp; omega)
          rw [← List.append_assoc, ← List.cons_append]
          exact List.prefix_append _ _
        rw [← Text.breakAt?_append hb, ← List.append_assoc, ← List.cons_append]
        exact hl.trans (List.prefix_append _ _)
      rw [List.cons_append, Text.breakAt?, if_neg hn, ih hb]
      rfl

theorem breakAt?_append_of_some {pattern s before after : Text}
    (h : Text.breakAt? pattern s = some (before, after)) (t : Text) :
    Text.breakAt? pattern (s ++ t) = some (before, after ++ t) := by
  have hs := Text.breakAt?_append h
  rw [← hs, List.append_assoc, List.append_assoc]
  exact breakAt?_congr h (after ++ t)

/-- A text is broken at the first occurrence. -/
theorem not_infix_of_breakAt? {pattern s before after : Text} (hp : pattern ≠ [])
    (h : Text.breakAt? pattern s = some (before, after)) : ¬ pattern <:+: before := by
  induction s generalizing before with
  | nil =>
    rw [Text.breakAt?, if_neg (by rwa [List.isEmpty_iff])] at h
    cases h
  | cons c rest ih =>
    rw [Text.breakAt?] at h
    split at h
    · cases h
      rwa [List.infix_nil]
    · next hn =>
      obtain ⟨⟨left, right⟩, hb, he⟩ := Option.map_eq_some_iff.mp h
      cases he
      rw [List.infix_cons_iff]
      rintro (hx | hx)
      · apply hn
        rw [List.isPrefixOf_iff_prefix, ← Text.breakAt?_append hb, ← List.cons_append]
        exact hx.trans (List.prefix_append _ _)
      · exact ih hb hx

theorem hasSubtext_iff {pattern s : Text} : Text.hasSubtext pattern s ↔ pattern <:+: s := by
  rw [Text.hasSubtext]
  induction s with
  | nil =>
    rw [Text.breakAt?, List.infix_nil]
    split <;> simp_all
  | cons c s ih =>
    rw [Text.breakAt?, List.infix_cons_iff, ← List.isPrefixOf_iff_prefix, ← ih]
    split <;> simp_all

/-- A character that a pattern does not have parts the places where the pattern occurs. -/
theorem infix_append_cons_iff {α : Type} {pattern s t : List α} {a : α} (h : a ∉ pattern) :
    pattern <:+: s ++ a :: t ↔ pattern <:+: s ∨ pattern <:+: t := by
  constructor
  · rintro ⟨left, right, he⟩
    rw [List.append_assoc] at he
    rcases List.append_eq_append_iff.mp he with ⟨inside, rfl, hi⟩ | ⟨inside, rfl, hi⟩
    · rcases List.append_eq_append_iff.mp hi with ⟨more, rfl, -⟩ | ⟨more, rfl, hm⟩
      · exact .inl ⟨left, more, List.append_assoc ..⟩
      · cases more with
        | nil => exact .inl ⟨left, [], by simp⟩
        | cons b more =>
          obtain ⟨rfl, -⟩ := List.cons.inj hm
          exact absurd (List.mem_append_right _ List.mem_cons_self) h
    · cases inside with
      | nil =>
        cases pattern with
        | nil => exact .inr List.nil_infix
        | cons b pattern =>
          obtain ⟨rfl, -⟩ := List.cons.inj hi
          exact absurd List.mem_cons_self h
      | cons b inside =>
        obtain ⟨rfl, rfl⟩ := List.cons.inj hi
        exact .inr ⟨inside, right, List.append_assoc ..⟩
  · rintro (h | h)
    · exact h.trans (List.prefix_append ..).isInfix
    · exact h.trans ((List.suffix_cons a t).trans (List.suffix_append ..)).isInfix

theorem breakAt?_singleton_eq_some_iff {c : Char} {s before after : Text} :
    Text.breakAt? [c] s = some (before, after) ↔ s = before ++ c :: after ∧ c ∉ before := by
  constructor
  · intro h
    refine ⟨(Text.breakAt?_append h).symm, fun hc => ?_⟩
    obtain ⟨left, right, rfl⟩ := List.append_of_mem hc
    exact not_infix_of_breakAt? (List.cons_ne_nil c []) h ⟨left, right, by simp⟩
  · rintro ⟨rfl, hc⟩
    induction before with
    | nil => simp [Text.breakAt?]
    | cons d before ih =>
      rw [List.mem_cons, not_or] at hc
      have hd : ¬ [c].isPrefixOf (d :: (before ++ c :: after)) := by simpa using hc.1
      rw [List.cons_append, Text.breakAt?, if_neg hd, ih hc.2]
      rfl

end StyleValues
