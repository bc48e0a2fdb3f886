import Mathlib.Data.List.Pairwise
import Mathlib.Data.List.SplitBy
import StyleValues.Proofs.Text.Runs

/-!
# Pieces

A test cuts a text into pieces, in turns of characters that pass it and of
characters that fail it. There is only one such cut (`alternating_iff`). Its
pieces that pass are the maximal runs, and what is made of a text run by run is
put together from what is made of each piece.
-/

set_option autoImplicit false

namespace StyleValues.Text

/-- The text cut wherever one of two neighbours passes the test and the other fails it. -/
def piecesBy (q : Char → Bool) (s : Text) : List Text := s.splitBy fun c d => q c == q d

def maximalRuns (q : Char → Bool) (s : Text) : List Text := (piecesBy q s).filter fun p => p.all q

/-- A cut of a text into pieces that have something in them, each of one kind, the kinds in turns. -/
structure Alternating (q : Char → Bool) (s : Text) (ps : List Text) : Prop where
  flatten : ps.flatten = s
  ne_nil : ∀ p ∈ ps, p ≠ []
  uniform : ∀ p ∈ ps, ∀ c ∈ p, q c = p.all q
  in_turns : ps.IsChain fun p r => p.all q ≠ r.all q

section
variable {q : Char → Bool}

theorem isChain_iff_uniform {p : Text} :
    (p.IsChain fun c d => (q c == q d) = true) ↔ ∀ c ∈ p, q c = p.all q := by
  simp only [beq_iff_eq]
  have : IsTrans Char fun c d => q c = q d := ⟨fun _ _ _ h h' => h.trans h'⟩
  have : Std.Symm fun c d => q c = q d := ⟨fun _ _ h => h.symm⟩
  rw [List.isChain_iff_pairwise]
  constructor
  · intro h c hc
    have hp : ∀ ⦃c⦄, c ∈ p → ∀ ⦃d⦄, d ∈ p → q c = q d := h.forall_of_forall fun _ _ => rfl
    rw [Bool.eq_iff_iff, List.all_eq_true]
    exact ⟨fun hq d hd => (hp hd hc).trans hq, fun hq => hq c hc⟩
  · intro h
    exact List.pairwise_of_forall_mem_list fun c hc d hd => (h c hc).trans (h d hd).symm

/-- The cut in turns is the one at every change of kind. -/
theorem alternating_iff {s : Text} {ps : List Text} : Alternating q s ps ↔ ps = piecesBy q s := by
  have hturn : (∀ p ∈ ps, p ≠ []) → (∀ p ∈ ps, ∀ c ∈ p, q c = p.all q) →
      ((ps.IsChain fun p r => ∃ hp hr, (q (p.getLast hp) == q (r.head hr)) = false) ↔
        ps.IsChain fun p r => p.all q ≠ r.all q) := by
    intro hn hu
    refine List.IsChain.iff_of_mem_imp fun p r hp hr => ?_
    have hlast := hu p hp _ (List.getLast_mem (hn p hp))
    have hhead := hu r hr _ (List.head_mem (hn r hr))
    rw [exists_prop_of_true (hn p hp), exists_prop_of_true (hn r hr), hlast, hhead,
      beq_eq_false_iff_ne]
  have hmem : [] ∉ ps ↔ ∀ p ∈ ps, p ≠ [] :=
    ⟨fun h p hp he => h (he ▸ hp), fun h hm => h [] hm rfl⟩
  rw [eq_comm, piecesBy, List.splitBy_eq_iff, hmem]
  simp only [isChain_iff_uniform]
  constructor
  · rintro ⟨hf, hn, hu, ht⟩
    exact ⟨hf.symm, hn, hu, (hturn hn hu).mpr ht⟩
  · rintro ⟨hf, hn, hu, ht⟩
    exact ⟨hf.symm, hn, hu, (hturn hn hu).mp ht⟩

theorem alternating_piecesBy (s : Text) : Alternating q s (piecesBy q s) := alternating_iff.mpr rfl

namespace Alternating

variable {s p : Text} {ps : List Text}

theorem cons_eq (h : Alternating q s (p :: ps)) : s = p ++ ps.flatten := h.flatten.symm

theorem tail (h : Alternating q s (p :: ps)) : Alternating q ps.flatten ps where
  flatten := rfl
  ne_nil := (List.forall_mem_cons.mp h.ne_nil).2
  uniform := (List.forall_mem_cons.mp h.uniform).2
  in_turns := (List.isChain_cons.mp h.in_turns).2

theorem head_behind (h : Alternating q s (p :: ps)) (hq : p.all q = true) :
    ps.flatten.head?.any q = false := by
  cases ps with
  | nil => rfl
  | cons r ps =>
    obtain ⟨d, r, rfl⟩ := List.exists_cons_of_ne_nil (h.ne_nil r (by simp))
    have hr := (List.isChain_cons.mp h.in_turns).1 (d :: r) rfl
    have hd : q d = (d :: r).all q := h.uniform (d :: r) (by simp) d (List.mem_cons_self ..)
    rw [List.flatten_cons, List.cons_append, List.head?_cons, Option.any_some, hd]
    rw [hq] at hr
    simpa using hr.symm

theorem not_of_mem (h : Alternating q s (p :: ps)) (hq : p.all q = false) : ∀ c ∈ p, ¬ q c := by
  intro c hc
  rw [h.uniform p (List.mem_cons_self ..) c hc, hq]
  exact Bool.false_ne_true

end Alternating

/-! ### What is made of the pieces -/

theorem cutFrom_eq_flatMap {α : Type} {f : Text → List α} {g : Char → List α} (hf : f [] = [])
    {s : Text} {ps : List Text} (h : Alternating q s ps) :
    cutFrom q f g [] s = ps.flatMap fun p => if p.all q then f p else p.flatMap g := by
  induction ps generalizing s with
  | nil =>
    obtain rfl : [] = s := h.flatten
    exact hf
  | cons p ps ih =>
    rw [h.cons_eq, List.flatMap_cons, ← ih h.tail]
    cases hq : p.all q with
    | true =>
      rw [if_pos rfl, cutFrom_append hf (.inr (h.head_behind hq)),
        cutFrom_of_all _ _ _ (List.all_eq_true.mp hq), List.nil_append]
    | false =>
      have hlast : p.getLast?.any q = false := by
        rw [List.getLast?_eq_getLast_of_ne_nil (h.ne_nil p (List.mem_cons_self ..)), Option.any_some]
        simpa using h.not_of_mem hq _ (List.getLast_mem _)
      rw [if_neg Bool.false_ne_true, cutFrom_append hf (.inl hlast),
        cutFrom_of_none hf (h.not_of_mem hq)]

theorem mapRuns_eq_flatMap_piecesBy {f : Text → Text} (hf : f [] = []) (s : Text) :
    mapRuns q f s = (piecesBy q s).flatMap fun p => if p.all q then f p else p := by
  rw [mapRuns, cutFrom_eq_flatMap hf (alternating_piecesBy s)]
  simp only [List.flatMap_singleton']

theorem runs_eq_maximalRuns (s : Text) : runs q s = maximalRuns q s := by
  have hp : ∀ p ∈ piecesBy q s, (if p.all q then (if p.isEmpty then [] else [p]) else
      p.flatMap fun _ => []) = if p.all q then [p] else [] := by
    intro p hp
    have hn := (alternating_piecesBy s).ne_nil p hp
    rw [List.flatMap_eq_nil_iff.mpr fun _ _ => rfl, List.isEmpty_eq_false_iff.mpr hn,
      if_neg Bool.false_ne_true]
  rw [runs, cutFrom_eq_flatMap rfl (alternating_piecesBy s), List.flatMap_congr hp, maximalRuns]
  induction piecesBy q s with
  | nil => rfl
  | cons p ps ih =>
    rw [List.flatMap_cons, List.filter_cons, ih]
    split <;> rfl

end

end StyleValues.Text
