import Mathlib.Data.List.DropRight
import StyleValues.Text.Basic

/-!
# Maximal runs

The characters that pass a test cut a text into its maximal runs and the
characters between them. What is made of a text run by run is known from any
cut at a character between two runs, and no run grows over such a cut. So the
runs that are found afterwards are those of the single results.
-/

set_option autoImplicit false

namespace StyleValues.Text

section
variable {α : Type} (q : Char → Bool) (f : Text → List α) (g : Char → List α)

/-- Puts something in the place of every maximal run and of every character between
two of them, in a text behind the run `run`. The empty run counts where two such
characters meet. -/
def cutFrom (run : Text) : Text → List α
  | [] => f run
  | c :: rest => if q c then cutFrom (run ++ [c]) rest else f run ++ (g c ++ cutFrom [] rest)

def runs (s : Text) : List Text :=
  cutFrom q (fun run => if run.isEmpty then [] else [run]) (fun _ => []) [] s

def mapRuns (f : Text → Text) (s : Text) : Text := cutFrom q f (fun c => [c]) [] s

variable {q}

theorem cutFrom_of_all (run : Text) {w : Text} (hw : ∀ c ∈ w, q c) :
    cutFrom q f g run w = f (run ++ w) := by
  induction w generalizing run with
  | nil => rw [cutFrom, List.append_nil]
  | cons c w ih =>
    obtain ⟨hc, hw⟩ := List.forall_mem_cons.mp hw
    rw [cutFrom, if_pos hc, ih _ hw, List.append_assoc, List.singleton_append]

theorem cutFrom_append_cons (run a b : Text) {c : Char} (hc : ¬ q c) :
    cutFrom q f g run (a ++ c :: b) = cutFrom q f g run a ++ (g c ++ cutFrom q f g [] b) := by
  induction a generalizing run with
  | nil => rw [List.nil_append, cutFrom.eq_2, if_neg hc, cutFrom.eq_1]
  | cons d a ih =>
    rw [List.cons_append, cutFrom, cutFrom]
    split
    · exact ih _
    · rw [ih, List.append_assoc, List.append_assoc]

variable {f g}

/-- What is made run by run may be cut wherever no run goes on. -/
theorem cutFrom_append (hf : f [] = []) {a b : Text}
    (h : a.getLast?.any q = false ∨ b.head?.any q = false) :
    cutFrom q f g [] (a ++ b) = cutFrom q f g [] a ++ cutFrom q f g [] b := by
  rcases h with h | h
  · rcases List.eq_nil_or_concat a with rfl | ⟨a, c, rfl⟩
    · rw [List.nil_append, cutFrom, hf, List.nil_append]
    · have hc : ¬ q c := by simpa using h
      rw [List.concat_eq_append, List.append_assoc, List.singleton_append,
        cutFrom_append_cons _ _ _ _ _ hc, cutFrom_append_cons _ _ _ _ _ hc, cutFrom.eq_1, hf,
        List.append_nil, List.append_assoc]
  · cases b with
    | nil => rw [List.append_nil, cutFrom.eq_1, hf, List.append_nil]
    | cons c b =>
      have hc : ¬ q c := by simpa using h
      rw [cutFrom_append_cons _ _ _ _ _ hc, cutFrom.eq_2, if_neg hc, hf, List.nil_append]

theorem cutFrom_of_none (hf : f [] = []) {w : Text} (hw : ∀ c ∈ w, ¬ q c) :
    cutFrom q f g [] w = w.flatMap g := by
  induction w with
  | nil => exact hf
  | cons c w ih =>
    obtain ⟨hc, hw⟩ := List.forall_mem_cons.mp hw
    rw [cutFrom, if_neg hc, ih hw, hf, List.nil_append, List.flatMap_cons]

/-- A text is a run, or a run in front of a character that is in none. -/
theorem cutInduction {P : Text → Prop} (run : ∀ w : Text, (∀ c ∈ w, q c) → P w)
    (cut : ∀ (w : Text) (c : Char) (rest : Text), (∀ d ∈ w, q d) → ¬ q c → P rest →
      P (w ++ c :: rest)) (s : Text) : P s := by
  have hw : ∀ c ∈ s.takeWhile q, q c := fun _ => List.mem_takeWhile_imp
  have hs := List.takeWhile_append_dropWhile (p := q) (l := s)
  rw [← hs]
  cases hd : s.dropWhile q with
  | nil =>
    rw [List.append_nil]
    exact run _ hw
  | cons c rest =>
    have hc : ¬ q c := by
      have hn := List.head?_dropWhile_not q s
      rw [hd] at hn
      simpa using hn
    have hlt : rest.length < s.length := by
      have hl := (List.dropWhile_sublist q (l := s)).length_le
      rw [hd, List.length_cons] at hl
      exact hl
    exact cut _ c rest hw hc (cutInduction run cut rest)
termination_by s.length

end

section
variable {q : Char → Bool}

theorem runs_of_all {w : Text} (hw : ∀ c ∈ w, q c) : runs q w = if w.isEmpty then [] else [w] := by
  rw [runs, cutFrom_of_all _ _ _ hw, List.nil_append]

theorem runs_append_cons (a b : Text) {c : Char} (hc : ¬ q c) :
    runs q (a ++ c :: b) = runs q a ++ runs q b := by
  rw [runs, cutFrom_append_cons _ _ _ _ _ hc]
  rfl

theorem mem_runs {r s : Text} (h : r ∈ runs q s) : r ≠ [] ∧ ∀ c ∈ r, q c := by
  have hr : ∀ w : Text, (∀ c ∈ w, q c) → r ∈ runs q w → r ≠ [] ∧ ∀ c ∈ r, q c := by
    intro w hw hm
    rw [runs_of_all hw] at hm
    cases w with
    | nil => cases hm
    | cons c w =>
      obtain rfl := List.mem_singleton.mp hm
      exact ⟨List.cons_ne_nil c w, hw⟩
  induction s using cutInduction (q := q) with
  | run w hw => exact hr w hw h
  | cut w c rest hw hc ih =>
    rw [runs_append_cons _ _ hc, List.mem_append] at h
    exact h.elim (hr w hw) ih

variable {f g : Text → Text}

theorem mapRuns_of_all {w : Text} (hw : ∀ c ∈ w, q c) : mapRuns q f w = f w := by
  rw [mapRuns, cutFrom_of_all _ _ _ hw, List.nil_append]

theorem mapRuns_append_cons (a b : Text) {c : Char} (hc : ¬ q c) :
    mapRuns q f (a ++ c :: b) = mapRuns q f a ++ c :: mapRuns q f b := by
  rw [mapRuns, cutFrom_append_cons _ _ _ _ _ hc]
  rfl

theorem mapRuns_append (hf : f [] = []) {a b : Text}
    (h : a.getLast?.any q = false ∨ b.head?.any q = false) :
    mapRuns q f (a ++ b) = mapRuns q f a ++ mapRuns q f b := cutFrom_append hf h

theorem mapRuns_congr (h0 : f [] = g []) {s : Text} (h : ∀ r ∈ runs q s, f r = g r) :
    mapRuns q f s = mapRuns q g s := by
  have hr : ∀ w : Text, (∀ r ∈ runs q w, f r = g r) → (∀ c ∈ w, q c) → f w = g w := by
    intro w h hw
    cases w with
    | nil => exact h0
    | cons c w =>
      rw [runs_of_all hw] at h
      exact h _ (List.mem_singleton_self _)
  induction s using cutInduction (q := q) with
  | run w hw => rw [mapRuns_of_all hw, mapRuns_of_all hw, hr w h hw]
  | cut w c rest hw hc ih =>
    rw [runs_append_cons _ _ hc, List.forall_mem_append] at h
    rw [mapRuns_append_cons _ _ hc, mapRuns_append_cons _ _ hc, ih h.2, mapRuns_of_all hw,
      mapRuns_of_all hw, hr w h.1 hw]

theorem mapRuns_id (s : Text) : mapRuns q id s = s := by
  induction s using cutInduction (q := q) with
  | run w hw => rw [mapRuns_of_all hw, id]
  | cut w c rest hw hc ih => rw [mapRuns_append_cons _ _ hc, ih, mapRuns_of_all hw, id]

theorem mapRuns_eq_self (h0 : f [] = []) {s : Text} (h : ∀ r ∈ runs q s, f r = r) :
    mapRuns q f s = s := by
  rw [mapRuns_congr h0 h]
  exact mapRuns_id s

theorem mapRuns_mapRuns (s : Text) :
    mapRuns q g (mapRuns q f s) = mapRuns q (fun r => mapRuns q g (f r)) s := by
  induction s using cutInduction (q := q) with
  | run w hw => rw [mapRuns_of_all hw, mapRuns_of_all hw]
  | cut w c rest hw hc ih =>
    rw [mapRuns_append_cons _ _ hc, mapRuns_append_cons _ _ hc, mapRuns_append_cons _ _ hc, ih,
      mapRuns_of_all hw, mapRuns_of_all hw]

theorem runs_mapRuns (h0 : f [] = []) (s : Text) :
    runs q (mapRuns q f s) = (runs q s).flatMap fun r => runs q (f r) := by
  have hr : ∀ w : Text, (∀ c ∈ w, q c) → runs q (f w) = (runs q w).flatMap fun r => runs q (f r) := by
    intro w hw
    rw [runs_of_all hw]
    cases w with
    | nil => rw [h0]; rfl
    | cons c w => exact (List.flatMap_singleton _ _).symm
  induction s using cutInduction (q := q) with
  | run w hw => rw [mapRuns_of_all hw, hr w hw]
  | cut w c rest hw hc ih =>
    rw [mapRuns_append_cons _ _ hc, runs_append_cons _ _ hc, runs_append_cons _ _ hc,
      List.flatMap_append, ih, mapRuns_of_all hw, hr w hw]

/-! ### The ends of a text that is changed run by run -/

variable {s : Text} (h0 : f [] = []) (h : ∀ r ∈ runs q s, f r ≠ [])
include h

theorem mapRuns_ne_nil (hs : s ≠ []) : mapRuns q f s ≠ [] := by
  induction s using cutInduction (q := q) with
  | run w hw =>
    rw [mapRuns_of_all hw]
    rw [runs_of_all hw, if_neg (by rwa [List.isEmpty_iff])] at h
    exact h w (List.mem_singleton_self w)
  | cut w c rest hw hc _ =>
    rw [mapRuns_append_cons _ _ hc]
    exact List.append_ne_nil_of_right_ne_nil _ (List.cons_ne_nil _ _)

include h0

/-- The text begins with what its first run became, or as it began. -/
theorem head?_mapRuns :
    (∃ r ∈ runs q s, r.head? = s.head? ∧ (mapRuns q f s).head? = (f r).head?) ∨
      (s.head?.any q = false ∧ (mapRuns q f s).head? = s.head?) := by
  induction s using cutInduction (q := q) with
  | run w hw =>
    rw [runs_of_all hw, mapRuns_of_all hw]
    cases w with
    | nil => exact Or.inr ⟨rfl, by rw [h0]⟩
    | cons d w => exact Or.inl ⟨d :: w, List.mem_singleton_self _, rfl, rfl⟩
  | cut w c rest hw hc _ =>
    rw [runs_append_cons _ _ hc, runs_of_all hw] at h ⊢
    rw [mapRuns_append_cons _ _ hc, mapRuns_of_all hw]
    cases w with
    | nil =>
      rw [h0]
      exact Or.inr ⟨by simpa using hc, rfl⟩
    | cons d w =>
      have hm : d :: w ∈ [d :: w] ++ runs q rest := List.mem_append_left _ (List.mem_singleton_self _)
      exact Or.inl ⟨d :: w, hm, rfl, List.head?_append_of_ne_nil _ (h _ hm)⟩

theorem getLast?_mapRuns :
    (∃ r ∈ runs q s, (mapRuns q f s).getLast? = (f r).getLast?) ∨
      (mapRuns q f s).getLast? = s.getLast? := by
  induction s using cutInduction (q := q) with
  | run w hw =>
    rw [runs_of_all hw, mapRuns_of_all hw]
    cases w with
    | nil => exact Or.inr (by rw [h0])
    | cons d w => exact Or.inl ⟨d :: w, List.mem_singleton_self _, rfl⟩
  | cut w c rest hw hc ih =>
    rw [runs_append_cons _ _ hc] at h ⊢
    rw [mapRuns_append_cons _ _ hc]
    have hr := (List.forall_mem_append.mp h).2
    by_cases hn : rest = []
    · have hnil : mapRuns q f [] = [] := h0
      rw [hn, hnil]
      exact Or.inr (by rw [List.getLast?_concat, List.getLast?_concat])
    · have hne := mapRuns_ne_nil hr hn
      rw [List.append_cons, List.append_cons w, List.getLast?_append_of_ne_nil _ hne,
        List.getLast?_append_of_ne_nil _ hn]
      rcases ih hr with ⟨r, hm, hl⟩ | hl
      · exact Or.inl ⟨r, List.mem_append_right _ hm, hl⟩
      · exact Or.inr hl

end

end StyleValues.Text
