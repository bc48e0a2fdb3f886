import StyleValues.Proofs.Substitution.Identifiers

/-!
# Occurrences of an identifier

Which occurrences of an identifier are replaced, by their places in the text.
The search finds occurrences one behind the other, whether they stand by
themselves or not, and those that do are replaced. That is each one that stands
by itself, taken from the left to the right, unless the identifier can begin
again inside of itself behind a character that is in no name: then one that
does not stand by itself hides one that does.
-/

set_option autoImplicit false

namespace StyleValues

/-! ### Places in a text -/

def occursAt (identifier s : Text) (i : Nat) : Bool := identifier.isPrefixOf (s.drop i)

def standsAt (identifier s : Text) (i : Nat) : Bool :=
  occursAt identifier s i && (isNameBoundary (s.take i).getLast? &&
    isNameBoundary (s.drop (i + identifier.length)).head?)

/-- The places below `k` that pass a test and are free, each taken with the `n` characters from
there on before the next is looked at. -/
def taken (test : Nat → Bool) (n : Nat) : Nat → List Nat
  | 0 => []
  | k + 1 =>
    if test k && (taken test n k).all fun j => j + n ≤ k then taken test n k ++ [k]
    else taken test n k

def foundPlaces (identifier s : Text) : List Nat :=
  taken (occursAt identifier s) identifier.length s.length

/-- The occurrences that stand by themselves, of two that overlap the first. -/
def standingPlaces (identifier s : Text) : List Nat :=
  taken (standsAt identifier s) identifier.length s.length

/-- What stands for a character when something is put in the place of the `n` characters from
each of some places on. -/
def placed (places : List Nat) (n : Nat) (replacement : Text) (e : Char × Nat) : Text :=
  if places.contains e.2 then replacement
  else if places.any fun j => j < e.2 && e.2 < j + n then []
  else [e.1]

/-- The text with something put in the place of the `n` characters from each of some places on. -/
def putAt (places : List Nat) (n : Nat) (replacement s : Text) : Text :=
  s.zipIdx.flatMap (placed places n replacement)

/-- Whether the identifier begins again inside of itself, behind a character that is in no name. -/
def hidesItself (identifier : Text) : Bool :=
  (List.range identifier.length).any fun k => 0 < k && (identifier.drop k).isPrefixOf identifier &&
    isNameBoundary (identifier.take k).getLast?

/-! ### Taking places -/

section
variable {test : Nat → Bool} {n k i j : Nat}

theorem lt_of_mem_taken (h : i ∈ taken test n k) : i < k := by
  induction k with
  | zero => cases h
  | succ k ih =>
    rw [taken] at h
    split at h
    · rcases List.mem_append.mp h with h | h
      · exact Nat.lt_succ_of_lt (ih h)
      · exact Nat.lt_succ_of_le (Nat.le_of_eq (List.mem_singleton.mp h))
    · exact Nat.lt_succ_of_lt (ih h)

theorem mem_taken_succ_of_lt (hi : i < k) : i ∈ taken test n (k + 1) ↔ i ∈ taken test n k := by
  rw [taken]
  split
  · rw [List.mem_append, List.mem_singleton, or_iff_left (Nat.ne_of_lt hi)]
  · rfl

theorem mem_taken_of_le (hi : i < j) (hj : j ≤ k) : i ∈ taken test n k ↔ i ∈ taken test n j := by
  induction hj with
  | refl => rfl
  | step hk ih => rw [mem_taken_succ_of_lt (Nat.lt_of_lt_of_le hi hk), ih]

theorem mem_taken_iff :
    i ∈ taken test n k ↔ i < k ∧ test i ∧ ∀ j ∈ taken test n k, j < i → j + n ≤ i := by
  by_cases hi : i < k
  · have hpast : (∀ j ∈ taken test n k, j < i → j + n ≤ i) ↔
        ∀ j ∈ taken test n i, j + n ≤ i := by
      constructor
      · intro h j hj
        have hlt := lt_of_mem_taken hj
        exact h j ((mem_taken_of_le hlt (Nat.le_of_lt hi)).mpr hj) hlt
      · intro h j hj hlt
        exact h j ((mem_taken_of_le hlt (Nat.le_of_lt hi)).mp hj)
    rw [hpast, mem_taken_of_le (Nat.lt_succ_self i) hi, taken]
    split
    · next h =>
      simp only [Bool.and_eq_true, List.all_eq_true, decide_eq_true_eq] at h
      simpa [hi] using h
    · next h =>
      simp only [Bool.and_eq_true, List.all_eq_true, decide_eq_true_eq] at h
      exact iff_of_false (fun hm => Nat.lt_irrefl i (lt_of_mem_taken hm)) fun hm => h hm.2
  · exact iff_of_false (fun h => hi (lt_of_mem_taken h)) fun h => hi h.1

/-- Where no place overlaps one behind it that passes a second test, taking the places that pass
the first loses none of those. -/
theorem filter_taken {p : Nat → Bool} (hp : ∀ i, p i → test i)
    (h : ∀ j i, test j → p i → j < i → j + n ≤ i) :
    (taken test n k).filter p = (List.range k).filter p := by
  induction k with
  | zero => rfl
  | succ k ih =>
    rw [List.range_succ, List.filter_append, ← ih, taken]
    cases hk : p k with
    | true =>
      have hfree : (test k && (taken test n k).all fun j => j + n ≤ k) = true := by
        rw [Bool.and_eq_true, List.all_eq_true]
        refine ⟨hp k hk, fun j hj => decide_eq_true ?_⟩
        obtain ⟨hlt, htest, -⟩ := mem_taken_iff.mp hj
        exact h j k htest hk hlt
      rw [if_pos hfree, List.filter_append]
    | false =>
      have hnone : [k].filter p = [] := by simp [hk]
      split
      · rw [List.filter_append]
      · rw [hnone, List.append_nil]

end

/-! ### What is put in place -/

section
variable {places : List Nat} {n : Nat} {replacement : Text} {c : Char} {i j : Nat}

theorem placed_of_mem (h : i ∈ places) : placed places n replacement (c, i) = replacement := by
  rw [placed, if_pos (List.contains_iff_mem.mpr h)]

theorem placed_of_covered (hi : i ∉ places) (hj : j ∈ places) (hlt : j < i) (h : i < j + n) :
    placed places n replacement (c, i) = [] := by
  rw [placed, if_neg (fun hc => hi (List.contains_iff_mem.mp hc)), if_pos]
  rw [List.any_eq_true]
  exact ⟨j, hj, by simp [hlt, h]⟩

theorem placed_of_free (hi : i ∉ places) (h : ∀ j ∈ places, j < i → j + n ≤ i) :
    placed places n replacement (c, i) = [c] := by
  rw [placed, if_neg (fun hc => hi (List.contains_iff_mem.mp hc)), if_neg]
  rw [List.any_eq_true]
  rintro ⟨j, hj, hc⟩
  simp only [Bool.and_eq_true, decide_eq_true_eq] at hc
  exact Nat.not_lt_of_le (h j hj hc.1) hc.2

/-- A stretch of text in which no place begins and that none reaches into stays. -/
theorem flatMap_placed_free {w : Text} {k : Nat}
    (h : ∀ i, k ≤ i → i < k + w.length → i ∉ places ∧ ∀ j ∈ places, j < i → j + n ≤ i) :
    (w.zipIdx k).flatMap (placed places n replacement) = w := by
  have hw : ∀ e ∈ w.zipIdx k, placed places n replacement e = [e.1] := by
    rintro ⟨c, i⟩ he
    obtain ⟨hk, hlt, -⟩ := List.mem_zipIdx he
    obtain ⟨hi, hf⟩ := h i hk (by omega)
    exact placed_of_free hi hf
  rw [List.flatMap_congr hw]
  exact (List.flatMap_pure_eq_map Prod.fst _).trans (List.zipIdx_map_fst k w)

theorem flatMap_placed_taken {w : Text} {k : Nat} (hn : w.length = n) (hne : w ≠ []) (hk : k ∈ places)
    (h : ∀ i, k < i → i < k + n → i ∉ places) :
    (w.zipIdx k).flatMap (placed places n replacement) = replacement := by
  obtain ⟨c, w, rfl⟩ := List.exists_cons_of_ne_nil hne
  have hw : (w.zipIdx (k + 1)).flatMap (placed places n replacement) = [] := by
    rw [List.flatMap_eq_nil_iff]
    rintro ⟨d, i⟩ he
    obtain ⟨hlt, hi, -⟩ := List.mem_zipIdx he
    rw [List.length_cons] at hn
    exact placed_of_covered (h i hlt (by omega)) hk hlt (by omega)
  rw [List.zipIdx_cons, List.flatMap_cons, hw, placed_of_mem hk, List.append_nil]

end

/-! ### The search -/

section
variable {identifier : Text} (replacement : Text)

theorem replaceFrom_skip {skip : Nat} (front w t : Text) (hw : w.length = skip) :
    replaceFrom identifier replacement skip front.getLast? (w ++ t) =
      replaceFrom identifier replacement 0 (front ++ w).getLast? t := by
  induction w generalizing front skip with
  | nil =>
    obtain rfl := hw
    rw [List.nil_append, List.append_nil]
    rfl
  | cons c w ih =>
    obtain rfl := hw
    have hc : some c = (front ++ [c]).getLast? := by simp
    rw [List.cons_append, List.length_cons, replaceFrom, hc, ih (front ++ [c]) rfl,
      List.append_assoc, List.singleton_append]

variable {replacement} {s front rest : Text}

theorem occursAt_append : occursAt identifier (front ++ rest) front.length = identifier.isPrefixOf rest := by
  rw [occursAt, List.drop_left]

theorem standsAt_append :
    standsAt identifier (front ++ (identifier ++ rest)) front.length =
      (isNameBoundary front.getLast? && isNameBoundary rest.head?) := by
  have hp : identifier.isPrefixOf (identifier ++ rest) := by
    rw [List.isPrefixOf_iff_prefix]
    exact List.prefix_append identifier rest
  rw [standsAt, occursAt_append, hp, Bool.true_and, List.take_left, ← List.append_assoc,
    ← List.length_append, List.drop_left]

theorem lt_of_occursAt (hne : identifier ≠ []) {i : Nat} (h : occursAt identifier s i) :
    i < s.length := by
  by_contra hi
  rw [occursAt, List.drop_eq_nil_of_le (Nat.le_of_not_lt hi), List.isPrefixOf_iff_prefix,
    List.prefix_nil] at h
  exact hne h

theorem mem_foundPlaces_iff (hne : identifier ≠ []) {i : Nat} :
    i ∈ foundPlaces identifier s ↔ occursAt identifier s i ∧
      ∀ j ∈ foundPlaces identifier s, j < i → j + identifier.length ≤ i := by
  rw [foundPlaces, mem_taken_iff]
  exact ⟨fun h => h.2, fun h => ⟨lt_of_occursAt hne h.1, h⟩⟩

theorem not_mem_foundPlaces (hne : identifier ≠ []) {i k : Nat}
    (hk : k ∈ foundPlaces identifier s) (hlt : k < i) (h : i < k + identifier.length) :
    i ∉ foundPlaces identifier s := by
  intro hi
  exact Nat.not_lt_of_le (((mem_foundPlaces_iff hne).mp hi).2 k hk hlt) h

def replacedPlaces (identifier s : Text) : List Nat :=
  (foundPlaces identifier s).filter (standsAt identifier s)

theorem mem_replacedPlaces_iff {i : Nat} : i ∈ replacedPlaces identifier s ↔
    i ∈ foundPlaces identifier s ∧ standsAt identifier s i := List.mem_filter

theorem flatMap_placed_found (hne : identifier ≠ []) (replacement : Text) {k : Nat}
    (hk : k ∈ foundPlaces identifier s) :
    (identifier.zipIdx k).flatMap
        (placed (replacedPlaces identifier s) identifier.length replacement) =
      if standsAt identifier s k then replacement else identifier := by
  have hafter : ∀ i, k < i → i < k + identifier.length → i ∉ replacedPlaces identifier s :=
    fun i hlt h hi => not_mem_foundPlaces hne hk hlt h (mem_replacedPlaces_iff.mp hi).1
  split
  · next hs =>
    exact flatMap_placed_taken rfl hne (mem_replacedPlaces_iff.mpr ⟨hk, hs⟩) hafter
  · next hs =>
    have hout : k ∉ replacedPlaces identifier s := fun h => hs (mem_replacedPlaces_iff.mp h).2
    refine flatMap_placed_free fun i hle hi => ⟨?_, fun j hj hji => ?_⟩
    · rcases Nat.eq_or_lt_of_le hle with rfl | hlt
      · exact hout
      · exact hafter i hlt hi
    · rcases Nat.lt_trichotomy j k with hjk | rfl | hkj
      · have hpast := ((mem_foundPlaces_iff hne).mp hk).2 j (mem_replacedPlaces_iff.mp hj).1 hjk
        omega
      · exact absurd hj hout
      · exact absurd hj (hafter j hkj (by omega))

/-- Whether no occurrence found in front of a place reaches over it. -/
def Unreached (identifier s : Text) (k : Nat) : Prop :=
  ∀ j ∈ foundPlaces identifier s, j < k → j + identifier.length ≤ k

theorem Unreached.behind_found {k : Nat} (h : Unreached identifier s k) (hne : identifier ≠ [])
    (hk : k ∈ foundPlaces identifier s) : Unreached identifier s (k + identifier.length) := by
  intro j hj hlt
  rcases Nat.lt_trichotomy j k with hjk | rfl | hkj
  · exact Nat.le_trans (h j hj hjk) (Nat.le_add_right _ _)
  · exact Nat.le_refl _
  · exact absurd hj (not_mem_foundPlaces hne hk hkj hlt)

theorem Unreached.behind_other {k : Nat} (h : Unreached identifier s k)
    (hk : k ∉ foundPlaces identifier s) : Unreached identifier s (k + 1) := by
  intro j hj hlt
  rcases Nat.eq_or_lt_of_le (Nat.le_of_lt_succ hlt) with rfl | hjk
  · exact absurd hj hk
  · exact Nat.le_succ_of_le (h j hj hjk)

theorem replaceFrom_found (hne : identifier ≠ []) (replacement front t : Text) :
    replaceFrom identifier replacement 0 front.getLast? (identifier ++ t) =
      (if standsAt identifier (front ++ (identifier ++ t)) front.length then replacement
        else identifier) ++
        replaceFrom identifier replacement 0 (front ++ identifier).getLast? t := by
  obtain ⟨x, w, rfl⟩ := List.exists_cons_of_ne_nil hne
  have hp : (x :: w).isPrefixOf (x :: (w ++ t)) :=
    List.isPrefixOf_iff_prefix.mpr (List.prefix_append (x :: w) t)
  have hx : some x = (front ++ [x]).getLast? := by simp
  have hd : (x :: (w ++ t)).drop (x :: w).length = t := List.drop_left
  rw [standsAt_append, List.cons_append, replaceFrom, if_pos hp, hd, List.length_cons,
    Nat.add_sub_cancel, hx, replaceFrom_skip replacement _ w t rfl, List.append_assoc,
    List.singleton_append]

/-- The search, from any place on that no occurrence found before reaches over. -/
theorem replaceFrom_eq (hne : identifier ≠ []) (replacement : Text) (hs : front ++ rest = s)
    (hfree : Unreached identifier s front.length) :
    replaceFrom identifier replacement 0 front.getLast? rest =
      (rest.zipIdx front.length).flatMap
        (placed (replacedPlaces identifier s) identifier.length replacement) := by
  induction hl : rest.length using Nat.strongRecOn generalizing front rest with
  | ind l ih =>
    subst hl
    by_cases hp : identifier.isPrefixOf rest
    · obtain ⟨t, rfl⟩ := List.isPrefixOf_iff_prefix.mp hp
      have hlt : t.length < (identifier ++ t).length := by
        rw [List.length_append]
        exact Nat.lt_add_of_pos_left (List.length_pos_of_ne_nil hne)
      have hk : front.length ∈ foundPlaces identifier s := by
        refine (mem_foundPlaces_iff hne).mpr ⟨?_, hfree⟩
        rw [← hs, occursAt_append, hp]
      have hnext := ih t.length hlt
        (show (front ++ identifier) ++ t = s by rw [List.append_assoc, hs])
        (by rw [List.length_append]; exact hfree.behind_found hne hk) rfl
      rw [replaceFrom_found hne, hs, hnext, List.zipIdx_append, List.flatMap_append,
        flatMap_placed_found hne replacement hk, List.length_append]
    · cases rest with
      | nil => rfl
      | cons c rest =>
        have hk : front.length ∉ foundPlaces identifier s := by
          intro hm
          have ho := ((mem_foundPlaces_iff hne).mp hm).1
          rw [← hs, occursAt_append] at ho
          exact hp ho
        have hc : some c = (front ++ [c]).getLast? := by simp
        have hnext := ih rest.length (Nat.lt_succ_self _)
          (show (front ++ [c]) ++ rest = s by rw [List.append_assoc, List.singleton_append, hs])
          (by rw [List.length_append]; exact hfree.behind_other hk) rfl
        have hout : front.length ∉ replacedPlaces identifier s :=
          fun h => hk (mem_replacedPlaces_iff.mp h).1
        rw [replaceFrom, if_neg hp, hc, hnext, List.zipIdx_cons, List.flatMap_cons,
          placed_of_free hout fun j hj => hfree j (mem_replacedPlaces_iff.mp hj).1,
          List.length_append, List.length_singleton, List.singleton_append]

theorem replaceIdentifier_eq_putAt (hne : identifier ≠ []) (replacement s : Text) :
    replaceIdentifier identifier replacement s =
      putAt (replacedPlaces identifier s) identifier.length replacement s := by
  rw [replaceIdentifier_of_ne_nil replacement hne]
  exact replaceFrom_eq hne replacement (show [] ++ s = s from rfl) fun j _ hj =>
    absurd hj (Nat.not_lt_zero j)

end

/-! ### Occurrences that hide others -/

section
variable {identifier s : Text}

theorem occursAt_of_standsAt {i : Nat} (h : standsAt identifier s i) : occursAt identifier s i :=
  (Bool.and_eq_true_iff.mp h).1

theorem hidesItself_iff : hidesItself identifier ↔ ∃ k, 0 < k ∧ k < identifier.length ∧
    identifier.drop k <+: identifier ∧ isNameBoundary (identifier.take k).getLast? := by
  simp only [hidesItself, List.any_eq_true, List.mem_range, Bool.and_eq_true, decide_eq_true_eq,
    List.isPrefixOf_iff_prefix]
  constructor
  · rintro ⟨k, hlt, ⟨hpos, hp⟩, hb⟩
    exact ⟨k, hpos, hlt, hp, hb⟩
  · rintro ⟨k, hpos, hlt, hp, hb⟩
    exact ⟨k, hlt, ⟨hpos, hp⟩, hb⟩

theorem take_ne_nil {k : Nat} (hpos : 0 < k) (hk : k < identifier.length) :
    identifier.take k ≠ [] := by
  intro h
  have hl := congrArg List.length h
  rw [List.length_take_of_le (Nat.le_of_lt hk)] at hl
  exact Nat.ne_of_gt hpos hl

/-- Only an identifier that hides itself stands by itself at a place inside of another occurrence. -/
theorem hidesItself_of_overlap {i j : Nat} (hj : occursAt identifier s j)
    (hi : standsAt identifier s i) (hlt : j < i) (ho : i < j + identifier.length) :
    hidesItself identifier := by
  obtain ⟨k, rfl⟩ := Nat.exists_eq_add_of_lt hlt
  have hk : k + 1 < identifier.length := by omega
  obtain ⟨t, ht⟩ := List.isPrefixOf_iff_prefix.mp hj
  have hp : identifier <+: s.drop (j + (k + 1)) :=
    List.isPrefixOf_iff_prefix.mp (occursAt_of_standsAt hi)
  have hd : s.drop (j + (k + 1)) = identifier.drop (k + 1) ++ t := by
    rw [← List.drop_drop, ← ht, List.drop_append_of_le_length (Nat.le_of_lt hk)]
  have htake : s.take (j + (k + 1)) = s.take j ++ identifier.take (k + 1) := by
    rw [List.take_add, ← ht, List.take_append_of_le_length (Nat.le_of_lt hk)]
  have hb : isNameBoundary (s.take (j + (k + 1))).getLast? :=
    (Bool.and_eq_true_iff.mp (Bool.and_eq_true_iff.mp hi).2).1
  have hn : identifier.take (k + 1) ≠ [] := take_ne_nil (Nat.succ_pos k) hk
  rw [htake, List.getLast?_append_of_ne_nil _ hn] at hb
  have hrest : identifier.drop (k + 1) <+: s.drop (j + (k + 1)) := by
    rw [hd]
    exact List.prefix_append _ _
  exact hidesItself_iff.mpr
    ⟨k + 1, Nat.succ_pos k, hk, List.prefix_of_prefix_length_le hrest hp (by simp), hb⟩

/-- Where no occurrence hides another, the places replaced are those that stand by themselves. -/
theorem replacedPlaces_of_not_hidesItself (h : ¬ hidesItself identifier) (s : Text) :
    replacedPlaces identifier s = standingPlaces identifier s := by
  have hapart : ∀ j i, occursAt identifier s j → standsAt identifier s i → j < i →
      j + identifier.length ≤ i := by
    intro j i hj hi hlt
    by_contra ho
    exact h (hidesItself_of_overlap hj hi hlt (Nat.lt_of_not_le ho))
  have hall : (standingPlaces identifier s).filter (standsAt identifier s) =
      standingPlaces identifier s :=
    List.filter_eq_self.mpr fun i hi => (mem_taken_iff.mp hi).2.1
  rw [replacedPlaces, foundPlaces, filter_taken (fun _ => occursAt_of_standsAt) hapart, ← hall,
    standingPlaces, filter_taken (fun _ => id) fun j i hj => hapart j i (occursAt_of_standsAt hj)]

theorem length_le_of_occursAt {i : Nat} (hne : identifier ≠ []) (h : occursAt identifier s i) :
    i + identifier.length ≤ s.length := by
  have hl := (List.isPrefixOf_iff_prefix.mp h).length_le
  have hi := lt_of_occursAt hne h
  rw [List.length_drop] at hl
  omega

theorem standingPlaces_ne_nil (hne : identifier ≠ []) {i : Nat} (h : standsAt identifier s i) :
    standingPlaces identifier s ≠ [] := by
  intro hnil
  have hi : i ∈ standingPlaces identifier s := by
    rw [standingPlaces, mem_taken_iff, ← standingPlaces, hnil]
    exact ⟨lt_of_occursAt hne (occursAt_of_standsAt h), h, fun _ hj => absurd hj List.not_mem_nil⟩
  rw [hnil] at hi
  cases hi

theorem exists_isNameChar_ne (x : Char) : ∃ c, isNameChar c ∧ c ≠ x := by
  by_cases hx : x = 'a'
  · exact ⟨'b', rfl, by rw [hx]; decide⟩
  · exact ⟨'a', rfl, fun h => hx h.symm⟩

theorem foundPlaces_twice {c : Char} {k : Nat} (hne : identifier ≠ []) (hc : identifier.head? ≠ some c)
    (hk : k < identifier.length) (hp : identifier.drop k <+: identifier) :
    ∀ i ∈ foundPlaces identifier (c :: (identifier.take k ++ identifier)), i = 1 := by
  have h0 : ¬ occursAt identifier (c :: (identifier.take k ++ identifier)) 0 := by
    intro h
    obtain ⟨x, w, rfl⟩ := List.exists_cons_of_ne_nil hne
    obtain ⟨t, ht⟩ := List.isPrefixOf_iff_prefix.mp h
    exact hc (congrArg some (List.cons.inj ht).1)
  have h1 : 1 ∈ foundPlaces identifier (c :: (identifier.take k ++ identifier)) := by
    refine (mem_foundPlaces_iff hne).mpr ⟨?_, fun j hj hlt => ?_⟩
    · have hi : identifier.take k ++ identifier.drop k <+: identifier.take k ++ identifier :=
        (List.prefix_append_right_inj _).mpr hp
      rw [List.take_append_drop] at hi
      exact List.isPrefixOf_iff_prefix.mpr hi
    · obtain rfl := Nat.lt_one_iff.mp hlt
      exact absurd ((mem_foundPlaces_iff hne).mp hj).1 h0
  intro i hi
  obtain ⟨ho, hpast⟩ := (mem_foundPlaces_iff hne).mp hi
  rcases Nat.lt_trichotomy i 1 with hlt | rfl | hlt
  · obtain rfl := Nat.lt_one_iff.mp hlt
    exact absurd ho h0
  · rfl
  · have hl := length_le_of_occursAt hne ho
    have hover := hpast 1 h1 hlt
    rw [List.length_cons, List.length_append, List.length_take_of_le (Nat.le_of_lt hk)] at hl
    omega

theorem exists_hidden (h : hidesItself identifier) :
    ∃ s, replacedPlaces identifier s = [] ∧ standingPlaces identifier s ≠ [] := by
  obtain ⟨k, hpos, hk, hp, hb⟩ := hidesItself_iff.mp h
  have hne : identifier ≠ [] := List.ne_nil_of_length_pos (Nat.zero_lt_of_lt hk)
  obtain ⟨c, hc, hcx⟩ := exists_isNameChar_ne (identifier.head hne)
  have hhead : identifier.head? ≠ some c := by
    rw [List.head?_eq_some_head hne]
    exact fun h => hcx (Option.some.inj h).symm
  refine ⟨c :: (identifier.take k ++ identifier), ?_, ?_⟩
  · refine List.filter_eq_nil_iff.mpr fun i hi hs => ?_
    obtain rfl := foundPlaces_twice hne hhead hk hp i hi
    -- The character in front is of a name.
    have hbc : isNameBoundary (some c) := (Bool.and_eq_true_iff.mp (Bool.and_eq_true_iff.mp hs).2).1
    rw [isNameBoundary, Option.any_some, hc] at hbc
    cases hbc
  · have hn : identifier.take k ≠ [] := take_ne_nil hpos hk
    have hs : standsAt identifier (c :: identifier.take k ++ (identifier ++ []))
        (c :: identifier.take k).length := by
      rw [standsAt_append, ← List.singleton_append, List.getLast?_append_of_ne_nil _ hn, hb]
      rfl
    rw [List.append_nil] at hs
    exact standingPlaces_ne_nil hne hs

theorem not_hidesItself_of_isNameChar (h : ∀ c ∈ identifier, isNameChar c) :
    ¬ hidesItself identifier := by
  intro hh
  obtain ⟨k, hpos, hk, -, hb⟩ := hidesItself_iff.mp hh
  have hn := take_ne_nil hpos hk
  rw [List.getLast?_eq_getLast_of_ne_nil hn, isNameBoundary, Option.any_some,
    h _ (List.mem_of_mem_take (List.getLast_mem hn))] at hb
  cases hb

end

/-- Something is put in the place of the occurrences that stand by themselves, of those that are
found one behind the other, and all else stays. An occurrence that stands by itself and is not
replaced begins inside of one that is found. So every occurrence that stands by itself is replaced,
of two that overlap the first, exactly if the identifier does not begin again inside of itself behind
a character that is in no name; an identifier of name characters never does. -/
theorem replaced_of_replaceIdentifier {identifier : Text} (hne : identifier ≠ []) :
    (∀ replacement s, replaceIdentifier identifier replacement s =
        putAt (replacedPlaces identifier s) identifier.length replacement s) ∧
      (∀ s i, standsAt identifier s i → i ∉ replacedPlaces identifier s →
        ∃ j ∈ foundPlaces identifier s, j < i ∧ i < j + identifier.length) ∧
      ((∀ s, replacedPlaces identifier s = standingPlaces identifier s) ↔
        ¬ hidesItself identifier) ∧
      ((∀ c ∈ identifier, isNameChar c) → ¬ hidesItself identifier) := by
  refine ⟨replaceIdentifier_eq_putAt hne, fun s i hs hi => ?_, ⟨fun h hh => ?_, ?_⟩,
    not_hidesItself_of_isNameChar⟩
  · by_contra hno
    refine hi (mem_replacedPlaces_iff.mpr ⟨(mem_foundPlaces_iff hne).mpr ?_, hs⟩)
    refine ⟨occursAt_of_standsAt hs, fun j hj hlt => ?_⟩
    by_contra ho
    exact hno ⟨j, hj, hlt, Nat.lt_of_not_le ho⟩
  · obtain ⟨s, hr, hs⟩ := exists_hidden hh
    exact hs (h s ▸ hr)
  · exact replacedPlaces_of_not_hidesItself

/-- Behind a name character such an identifier is found and kept, and hides that it stands by
itself two characters further on. -/
theorem identifier_hidden :
    replaceIdentifier "a.a".toList ['v'] "xa.a.a".toList = "xa.a.a".toList ∧
      standingPlaces "a.a".toList "xa.a.a".toList = [3] ∧
      putAt [3] 3 ['v'] "xa.a.a".toList = "xa.v".toList := by
  refine ⟨?_, ?_, ?_⟩ <;> rfl

theorem replaced_of_replaceIdentifier_dotted :
    "a.a".toList ≠ [] ∧
      replaceIdentifier "a.a".toList ['v'] "a.a.a xa.a.a".toList = "v.a xa.a.a".toList ∧
      ¬ ∀ s, replacedPlaces "a.a".toList s = standingPlaces "a.a".toList s := by
  have hne : "a.a".toList ≠ [] := by decide
  obtain ⟨hput, -, hall, -⟩ := replaced_of_replaceIdentifier hne
  refine ⟨hne, (hput _ _).trans rfl, fun h => hall.mp h rfl⟩

end StyleValues
