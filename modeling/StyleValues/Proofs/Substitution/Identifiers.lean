import Mathlib.Data.List.Infix
import StyleValues.Proofs.Text.Runs
import StyleValues.Substitution.Identifier

/-!
# Identifiers after redirects

An identifier made of name characters stands by itself exactly where it is a
whole run of name characters. So replacing it is a change of these runs, one
by one, and so are any number of redirects: what becomes of an identifier
depends on the identifier alone, and not on the text it stands in.
-/

set_option autoImplicit false

namespace StyleValues

open Text

def identifiersIn (s : Text) : List Text := runs isNameChar s

theorem eq_of_mem_identifiersIn {t w : Text} (hw : ∀ c ∈ w, isNameChar c) (h : t ∈ identifiersIn w) :
    t = w := by
  rw [identifiersIn, runs_of_all hw] at h
  split at h
  · cases h
  · exact List.mem_singleton.mp h

/-! ### One identifier -/

section
variable {identifier : Text} (replacement : Text)

theorem prefix_of_prefix_append (hi : ∀ c ∈ identifier, isNameChar c) {w tail : Text}
    (ht : isNameBoundary tail.head?) (h : identifier <+: w ++ tail) : identifier <+: w := by
  rcases List.prefix_or_prefix_of_prefix h (List.prefix_append w tail) with h' | ⟨u, rfl⟩
  · exact h'
  · cases u with
    | nil => rw [List.append_nil]
    | cons c u =>
      -- The next character of the identifier would be the one behind the run.
      obtain ⟨v, hv⟩ := h
      have hc : tail = c :: (u ++ v) := by
        rw [List.append_assoc, List.cons_append] at hv
        exact (List.append_cancel_left hv).symm
      rw [hc, isNameBoundary, List.head?_cons, Option.any_some, hi c (by simp)] at ht
      cases ht

variable (hi : ∀ c ∈ identifier, isNameChar c) (hne : identifier ≠ [])
include hi hne

theorem not_isPrefixOf_of_boundary {s : Text} (hs : isNameBoundary s.head?) :
    ¬ identifier.isPrefixOf s := by
  intro h
  have hp : identifier <+: [] ++ s := List.isPrefixOf_iff_prefix.mp h
  exact hne (List.prefix_nil.mp (prefix_of_prefix_append hi hs hp))

/-- Between two runs it does not matter what was in front. -/
theorem replaceFrom_of_boundary {s : Text} (hs : isNameBoundary s.head?) (previous : Option Char) :
    replaceFrom identifier replacement 0 previous s = replaceFrom identifier replacement 0 none s := by
  cases s with
  | nil => rfl
  | cons c s =>
    have hp := not_isPrefixOf_of_boundary hi hne hs
    rw [replaceFrom, replaceFrom, if_neg hp, if_neg hp]

theorem replaceFrom_inside {d : Char} (hd : isNameChar d) {w tail : Text} (hw : ∀ c ∈ w, isNameChar c)
    (ht : isNameBoundary tail.head?) {skip : Nat} (hk : skip ≤ w.length) :
    replaceFrom identifier replacement skip (some d) (w ++ tail) =
      w.drop skip ++ replaceFrom identifier replacement 0 none tail := by
  induction w generalizing d skip with
  | nil =>
    obtain rfl := Nat.le_zero.mp hk
    exact replaceFrom_of_boundary replacement hi hne ht (some d)
  | cons x w ih =>
    obtain ⟨hx, hw'⟩ := List.forall_mem_cons.mp hw
    cases skip with
    | succ skip =>
      rw [List.cons_append, replaceFrom, List.drop_succ_cons]
      exact ih hx hw' (Nat.le_of_succ_le_succ hk)
    | zero =>
      have hb : isNameBoundary (some d) = false := by rw [isNameBoundary, Option.any_some, hd]; rfl
      rw [List.cons_append, replaceFrom]
      split
      · next hp =>
        obtain ⟨u, hu⟩ := prefix_of_prefix_append (w := x :: w) hi ht (List.isPrefixOf_iff_prefix.mp hp)
        obtain ⟨y, rest, rfl⟩ := List.exists_cons_of_ne_nil hne
        rw [List.cons_append] at hu
        obtain ⟨rfl, rfl⟩ := List.cons.inj hu
        rw [hb, Bool.false_and, if_neg Bool.false_ne_true, List.length_cons, Nat.add_sub_cancel,
          ih hx hw' (by simp)]
        simp
      · rw [ih hx hw' (Nat.zero_le _)]
        rfl

theorem replaceFrom_run {w tail : Text} (hw : ∀ c ∈ w, isNameChar c) (ht : isNameBoundary tail.head?) :
    replaceFrom identifier replacement 0 none (w ++ tail) =
      (if w = identifier then replacement else w) ++
        replaceFrom identifier replacement 0 none tail := by
  cases w with
  | nil =>
    rw [if_neg (Ne.symm hne)]
    rfl
  | cons x w =>
    obtain ⟨hx, hw'⟩ := List.forall_mem_cons.mp hw
    have hin : ∀ skip ≤ w.length, replaceFrom identifier replacement skip (some x) (w ++ tail) =
        w.drop skip ++ replaceFrom identifier replacement 0 none tail :=
      fun _ => replaceFrom_inside replacement hi hne hx hw' ht
    rw [List.cons_append, replaceFrom]
    split
    · next hp =>
      obtain ⟨u, hu⟩ := prefix_of_prefix_append (w := x :: w) hi ht (List.isPrefixOf_iff_prefix.mp hp)
      obtain ⟨y, rest, rfl⟩ := List.exists_cons_of_ne_nil hne
      rw [List.cons_append] at hu
      obtain ⟨rfl, rfl⟩ := List.cons.inj hu
      have hd : (y :: (rest ++ u ++ tail)).drop (y :: rest).length = u ++ tail := by simp
      rw [hd, List.length_cons, Nat.add_sub_cancel, hin _ (by simp)]
      cases u with
      | nil =>
        have hb : (isNameBoundary none && isNameBoundary ([] ++ tail).head?) = true := ht
        rw [hb, if_pos rfl, List.append_nil, if_pos rfl, List.drop_length, List.nil_append]
      | cons c u =>
        have hc : isNameBoundary (c :: u ++ tail).head? = false := by
          rw [List.cons_append, List.head?_cons, isNameBoundary, Option.any_some, hw' c (by simp)]
          rfl
        rw [hc, if_neg (by simp)]
        simp
    · next hp =>
      have hw : x :: w ≠ identifier := by
        rintro rfl
        exact hp (List.isPrefixOf_iff_prefix.mpr (List.prefix_append (x :: w) tail))
      rw [if_neg hw, hin 0 (Nat.zero_le _)]
      rfl

omit hi in
theorem replaceIdentifier_of_ne_nil (s : Text) :
    replaceIdentifier identifier replacement s = replaceFrom identifier replacement 0 none s := by
  rw [replaceIdentifier, if_neg (fun h => hne (List.isEmpty_iff.mp h))]

theorem replaceIdentifier_run {w : Text} (hw : ∀ c ∈ w, isNameChar c) :
    replaceIdentifier identifier replacement w = if w = identifier then replacement else w := by
  have h : replaceFrom identifier replacement 0 none (w ++ []) =
      (if w = identifier then replacement else w) ++
        replaceFrom identifier replacement 0 none [] := replaceFrom_run replacement hi hne hw rfl
  rw [List.append_nil] at h
  rw [replaceIdentifier_of_ne_nil replacement hne, h]
  exact List.append_nil _

end

/-! ### Characters that no occurrence can have -/

theorem prefix_append_cons_iff {s w rest : Text} {c : Char} (hc : c ∉ s) :
    s <+: w ++ c :: rest ↔ s <+: w := by
  refine ⟨fun h => ?_, fun h => h.trans (List.prefix_append w _)⟩
  rcases List.prefix_or_prefix_of_prefix h (List.prefix_append w _) with h' | ⟨u, rfl⟩
  · exact h'
  · cases u with
    | nil => rw [List.append_nil]
    | cons d u =>
      obtain ⟨rfl, -⟩ := List.cons_prefix_cons.mp ((List.prefix_append_right_inj w).mp h)
      exact absurd (by simp) hc

section
variable {identifier : Text} (replacement : Text) {c : Char} (hc : ¬ isNameChar c)
include hc

theorem replaceFrom_append_cons (hne : identifier ≠ []) (hi : c ∉ identifier) {w : Text} {skip : Nat}
    (hk : skip ≤ w.length) (previous : Option Char) (rest : Text) :
    replaceFrom identifier replacement skip previous (w ++ c :: rest) =
      replaceFrom identifier replacement skip previous w ++
        c :: replaceFrom identifier replacement 0 none rest := by
  have hb : isNameBoundary (some c) = true := by
    rw [isNameBoundary, Option.any_some]
    simpa using hc
  induction w generalizing skip previous with
  | nil =>
    obtain rfl := Nat.le_zero.mp hk
    have hp : identifier.isPrefixOf (c :: rest) = false := by
      obtain ⟨d, identifier, rfl⟩ := List.exists_cons_of_ne_nil hne
      rw [List.isPrefixOf, Bool.and_eq_false_iff, beq_eq_false_iff_ne]
      exact Or.inl fun h => hi (h ▸ List.mem_cons_self ..)
    have hr : replaceFrom identifier replacement 0 (some c) rest =
        replaceFrom identifier replacement 0 none rest := by
      cases rest with
      | nil => rfl
      | cons d rest =>
        have hs : isNameBoundary (some c) = isNameBoundary none := hb
        rw [replaceFrom, replaceFrom, hs]
    have hn : replaceFrom identifier replacement 0 previous [] = [] := rfl
    rw [hn, List.nil_append, List.nil_append, replaceFrom,
      if_neg (by rw [hp]; exact Bool.false_ne_true), hr]
  | cons x w ih =>
    cases skip with
    | succ skip =>
      rw [List.cons_append, replaceFrom, replaceFrom]
      exact ih (Nat.le_of_succ_le_succ hk) (some x)
    | zero =>
      have hp : identifier.isPrefixOf (x :: (w ++ c :: rest)) = identifier.isPrefixOf (x :: w) := by
        rw [Bool.eq_iff_iff, List.isPrefixOf_iff_prefix, List.isPrefixOf_iff_prefix,
          ← List.cons_append]
        exact prefix_append_cons_iff hi
      rw [List.cons_append, replaceFrom, replaceFrom, hp]
      split
      · next h =>
        obtain ⟨u, hu⟩ := List.isPrefixOf_iff_prefix.mp h
        have hl : identifier.length - 1 ≤ w.length := by
          have := congrArg List.length hu
          simp only [List.length_append, List.length_cons] at this
          omega
        have hd : isNameBoundary ((x :: (w ++ c :: rest)).drop identifier.length).head? =
            isNameBoundary ((x :: w).drop identifier.length).head? := by
          rw [← List.cons_append, ← hu, List.append_assoc, List.drop_left, List.drop_left]
          cases u with
          | nil => exact hb
          | cons d u => rfl
        rw [hd, ih hl (some x), List.append_assoc]
      · rw [ih (Nat.zero_le _) (some x)]
        rfl

theorem replaceIdentifier_append_cons (hi : c ∉ identifier) (w rest : Text) :
    replaceIdentifier identifier replacement (w ++ c :: rest) =
      replaceIdentifier identifier replacement w ++
        c :: replaceIdentifier identifier replacement rest := by
  by_cases hne : identifier = []
  · subst hne
    rfl
  · rw [replaceIdentifier_of_ne_nil _ hne, replaceIdentifier_of_ne_nil _ hne,
      replaceIdentifier_of_ne_nil _ hne]
    exact replaceFrom_append_cons replacement hc hne hi (Nat.zero_le _) none rest

end

theorem replaceIdentifier_eq_mapRuns {identifier : Text} (hi : ∀ c ∈ identifier, isNameChar c)
    (replacement s : Text) :
    replaceIdentifier identifier replacement s =
      mapRuns isNameChar (replaceIdentifier identifier replacement) s := by
  by_cases hne : identifier = []
  · subst hne
    have h : replaceIdentifier [] replacement = id := rfl
    rw [h, mapRuns_id]
    rfl
  · induction s using cutInduction (q := isNameChar) with
    | run w hw => rw [mapRuns_of_all hw]
    | cut w c rest hw hc ih =>
      rw [replaceIdentifier_append_cons replacement hc (fun h => hc (hi c h)),
        mapRuns_append_cons _ _ hc, mapRuns_of_all hw, ih]

theorem replaceIdentifier_of_not_mem {identifier : Text} (hi : ∀ c ∈ identifier, isNameChar c)
    (replacement : Text) {s : Text} (h : identifier ∉ identifiersIn s) :
    replaceIdentifier identifier replacement s = s := by
  by_cases hne : identifier = []
  · subst hne
    rfl
  · rw [replaceIdentifier_eq_mapRuns hi, mapRuns_eq_self]
    · rw [replaceIdentifier_of_ne_nil _ hne]
      rfl
    · intro r hr
      rw [replaceIdentifier_run replacement hi hne (mem_runs hr).2, if_neg]
      rintro rfl
      exact h hr

/-! ### Redirects -/

def Redirects.AreNames (rs : Redirects) : Prop := ∀ e ∈ rs, ∀ c ∈ e.1, isNameChar c

section
variable {rs : Redirects} (hr : rs.AreNames)

theorem redirect_nil (rs : Redirects) : redirect rs [] = [] := by
  induction rs with
  | nil => rfl
  | cons e rs ih =>
    have he : replaceIdentifier e.1 e.2 [] = [] := by
      rw [replaceIdentifier]
      split <;> rfl
    rw [redirect, List.foldl_cons, he]
    exact ih

include hr

/-- Redirects apply to the runs of name characters, each for itself. -/
theorem redirect_eq_mapRuns (s : Text) : redirect rs s = mapRuns isNameChar (redirect rs) s := by
  induction rs generalizing s with
  | nil => exact (mapRuns_id s).symm
  | cons e rs ih =>
    obtain ⟨he, hrs⟩ := List.forall_mem_cons.mp hr
    have hs : ∀ t, redirect (e :: rs) t = redirect rs (replaceIdentifier e.1 e.2 t) := fun _ => rfl
    calc
      redirect (e :: rs) s = mapRuns isNameChar (redirect rs) (replaceIdentifier e.1 e.2 s) := by
        rw [hs, ih hrs]
      _ = mapRuns isNameChar (fun r => mapRuns isNameChar (redirect rs) (replaceIdentifier e.1 e.2 r))
          s := by rw [replaceIdentifier_eq_mapRuns he, mapRuns_mapRuns]
      _ = mapRuns isNameChar (redirect (e :: rs)) s := by
        congr 1
        funext r
        rw [hs, ih hrs]

omit hr in
/-- A character that is in no name and in no scoped identifier stays, and parts the text. -/
theorem redirect_append_cons {c : Char} (hc : ¬ isNameChar c) (h : ∀ e ∈ rs, c ∉ e.1) (a b : Text) :
    redirect rs (a ++ c :: b) = redirect rs a ++ c :: redirect rs b := by
  induction rs generalizing a b with
  | nil => rfl
  | cons e rs ih =>
    obtain ⟨he, hrs⟩ := List.forall_mem_cons.mp h
    have hs : ∀ t, redirect (e :: rs) t = redirect rs (replaceIdentifier e.1 e.2 t) := fun _ => rfl
    rw [hs, hs, hs, replaceIdentifier_append_cons e.2 hc he, ih hrs]

/-- Redirects apply to both sides of a cut that goes through no run of name characters. -/
theorem redirect_cut {a b : Text} (h : isNameBoundary a.getLast? ∨ isNameBoundary b.head?) :
    redirect rs (a ++ b) = redirect rs a ++ redirect rs b := by
  have h' : a.getLast?.any isNameChar = false ∨ b.head?.any isNameChar = false := by
    simpa [isNameBoundary] using h
  rw [redirect_eq_mapRuns hr (a ++ b), mapRuns_append (redirect_nil rs) h', ← redirect_eq_mapRuns hr,
    ← redirect_eq_mapRuns hr]

theorem redirect_of_not_mem {s : Text} (h : ∀ e ∈ rs, e.1 ∉ identifiersIn s) : redirect rs s = s := by
  induction rs with
  | nil => rfl
  | cons e rs ih =>
    obtain ⟨he, hrs⟩ := List.forall_mem_cons.mp hr
    obtain ⟨hm, h⟩ := List.forall_mem_cons.mp h
    have hs : redirect (e :: rs) s = redirect rs (replaceIdentifier e.1 e.2 s) := rfl
    rw [hs, replaceIdentifier_of_not_mem he e.2 hm, ih hrs h]

end

/-- A scoped identifier and the value it stands for become the same text, if no redirect up to
its own changes that value. -/
theorem redirect_scoped {before after : Redirects} {identifier value : Text}
    (hr : (before ++ (identifier, value) :: after : Redirects).AreNames) (hne : identifier ≠ [])
    (hb : identifier ∉ before.map Prod.fst)
    (hm : ∀ e ∈ before ++ [(identifier, value)], e.1 ∉ identifiersIn value) :
    redirect (before ++ (identifier, value) :: after) identifier =
      redirect (before ++ (identifier, value) :: after) value := by
  obtain ⟨hrb, hr'⟩ := List.forall_mem_append.mp hr
  have hi : ∀ c ∈ identifier, isNameChar c := hr' _ (List.mem_cons_self ..)
  have hi' : ∀ e ∈ before, e.1 ∉ identifiersIn identifier := fun e he hm =>
    hb (List.mem_map.mpr ⟨e, he, eq_of_mem_identifiersIn hi hm⟩)
  have h1 : redirect before identifier = identifier := redirect_of_not_mem hrb hi'
  have h2 : redirect before value = value :=
    redirect_of_not_mem hrb fun e he => hm e (List.mem_append_left _ he)
  have h3 : replaceIdentifier identifier value identifier = value := by
    rw [replaceIdentifier_run value hi hne hi, if_pos rfl]
  have h4 : replaceIdentifier identifier value value = value :=
    replaceIdentifier_of_not_mem hi value (hm (identifier, value) (by simp))
  have hs : ∀ t, redirect ((identifier, value) :: after) t =
      redirect after (replaceIdentifier identifier value t) := fun _ => rfl
  rw [redirect_append, redirect_append, h1, h2, hs, hs, h3, h4]

end StyleValues
