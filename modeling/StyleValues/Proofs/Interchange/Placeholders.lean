import StyleValues.Proofs.Interchange.Grouping

/-!
# Placeholders do not collide

The number at the end of a placeholder is read back from it, so two tokens for
one name with different numbers differ, and the search for a free number never
comes back to a token that it has struck off. Every token handed out is taken
from then on: the tokens of a run differ from each other and from all that
were taken before it.
-/

set_option autoImplicit false

namespace StyleValues

theorem decimal_injective {m n : Nat} (h : Text.decimal m = Text.decimal n) : m = n := by
  have hd : Nat.toDigits 10 m = Nat.toDigits 10 n := h
  calc
    m = Nat.ofDigitChars 10 (Nat.toDigits 10 m) 0 := Nat.ofDigitChars_ten_toDigits.symm
    _ = Nat.ofDigitChars 10 (Nat.toDigits 10 n) 0 := by rw [hd]
    _ = n := Nat.ofDigitChars_ten_toDigits

/-- The search may strike tokens off the list only if it has passed them by. -/
theorem firstFree_spec {token : Nat → Text} (hi : Function.Injective token) {n : Nat}
    {taken all : List Text} (h : ∀ t ∈ all, t ∈ taken ∨ ∃ m < n, t = token m) :
    n ≤ firstFree token n taken ∧ token (firstFree token n taken) ∉ all := by
  induction n, taken using firstFree.induct token with
  | case1 n taken hm ih =>
    have hs : ∀ t ∈ all, t ∈ taken.erase (token n) ∨ ∃ m < n + 1, t = token m := by
      intro t ht
      rcases h t ht with ht | ⟨m, hlt, e⟩
      · by_cases e : t = token n
        · exact Or.inr ⟨n, Nat.lt_succ_self n, e⟩
        · exact Or.inl ((List.mem_erase_of_ne e).mpr ht)
      · exact Or.inr ⟨m, Nat.lt_succ_of_lt hlt, e⟩
    obtain ⟨hle, hn⟩ := ih hs
    rw [firstFree, if_pos hm]
    exact ⟨Nat.le_of_succ_le hle, hn⟩
  | case2 n taken hm =>
    rw [firstFree, if_neg hm]
    refine ⟨Nat.le_refl n, ?_⟩
    intro ha
    rcases h (token n) ha with ht | ⟨m, hlt, e⟩
    · exact hm ht
    · have := hi e
      omega

namespace Allocator

theorem placeholder_injective (a : Allocator) (name : Text) :
    Function.Injective (a.placeholder name) := by
  intro m n h
  simp only [placeholder, List.append_cancel_left_eq, List.cons.injEq, true_and] at h
  exact decimal_injective h

theorem allocate_not_mem_taken (a : Allocator) (name : Text) :
    (a.allocate name).1 ∉ a.taken :=
  (firstFree_spec (a.placeholder_injective name) fun _ ht => Or.inl ht).2

theorem taken_allocate (a : Allocator) (name : Text) :
    (a.allocate name).2.taken = (a.allocate name).1 :: a.taken := rfl

end Allocator

/-- The tokens that an allocator hands out are new, each one among all that were there before. -/
theorem nodup_allot (a : Allocator) (us : List ImportUse) :
    ((allot a us).map Prod.snd).Nodup ∧ ∀ t ∈ (allot a us).map Prod.snd, t ∉ a.taken := by
  induction us generalizing a with
  | nil => exact ⟨List.nodup_nil, fun t ht => absurd ht List.not_mem_nil⟩
  | cons u us ih =>
    obtain ⟨hn, ht⟩ := ih (a.allocate u.name).2
    rw [Allocator.taken_allocate] at ht
    rw [allot, List.map_cons, List.nodup_cons]
    refine ⟨⟨fun hm => ht _ hm (List.mem_cons_self ..), hn⟩, ?_⟩
    intro t hm
    rcases List.mem_cons.mp hm with rfl | hm
    · exact a.allocate_not_mem_taken u.name
    · exact fun h => ht t hm (List.mem_cons_of_mem _ h)

/-- After a run the taken tokens are those that were taken before it and those it handed out. -/
theorem taken_registerAll (r : Imports) (us : List ImportUse) :
    (r.registerAll us).allocator.taken =
      ((allot r.allocator us).map Prod.snd).reverse ++ r.allocator.taken := by
  induction us generalizing r with
  | nil => rfl
  | cons u us ih =>
    have hs : (r.registerAll (u :: us)).allocator.taken =
        ((r.registerUse u).registerAll us).allocator.taken := rfl
    rw [hs, ih (r.registerUse u), allot, List.map_cons, List.reverse_cons, List.append_assoc]
    rfl

end StyleValues
