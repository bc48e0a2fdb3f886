import Mathlib.Data.List.Dedup
import Mathlib.Data.List.Perm.Subperm
import StyleValues.Proofs.Interchange.Placeholders
import StyleValues.Proofs.Text.Cutting

/-!
# The search for a free placeholder

The number of a placeholder is looked for by trying one after the other. The
numbers that are passed by have different tokens, and all of these are taken,
so the search is over after at most one turn more than there are taken tokens
(`allocateWithin?_eq`, `number_le`). A number is read back from the end of its
token whatever stands in front of it, so the numbers alone keep apart all
tokens of a run.
-/

set_option autoImplicit false

namespace StyleValues

namespace Allocator

def attempt (a : Allocator) (name : Text) : Option Text × Allocator :=
  let token := a.placeholder name a.next
  if a.taken.contains token then (none, { a with next := a.next + 1 })
  else (some token, { a with next := a.next + 1, taken := token :: a.taken })

def allocateWithin? (name : Text) : Nat → Allocator → Option (Text × Allocator)
  | 0, _ => none
  | turns + 1, a =>
    match a.attempt name with
    | (some token, next) => some (token, next)
    | (none, next) => allocateWithin? name turns next

end Allocator

inductive Call where
  | allocate (name : Text)
  | register (use : ImportUse)
deriving DecidableEq, Repr

def Call.name : Call → Text
  | .allocate name => name
  | .register use => use.name

namespace Imports

def answer (r : Imports) : Call → Text × Imports
  | .allocate name => r.allocate name
  | .register use => r.register use.path use.source use.name use.anchor

def answers : Imports → List Call → List Text
  | _, [] => []
  | r, call :: rest => (r.answer call).1 :: (r.answer call).2.answers rest

end Imports

def lastNumber (token : Text) : Nat :=
  Nat.ofDigitChars 10 (token.reverse.takeWhile Char.isDigit).reverse 0

/-! ### One search -/

/-- Every number that the search passes by has a token that is taken. -/
theorem token_mem_of_lt_firstFree {token : Nat → Text} {n m : Nat} {taken : List Text}
    (hn : n ≤ m) (hm : m < firstFree token n taken) : token m ∈ taken := by
  induction n, taken using firstFree.induct token with
  | case1 n taken hmem ih =>
    rw [firstFree, if_pos hmem] at hm
    by_cases he : n = m
    · rwa [← he]
    · exact List.mem_of_mem_erase (ih (by omega) hm)
  | case2 n taken hmem =>
    rw [firstFree, if_neg hmem] at hm
    omega

theorem eq_firstFree {token : Nat → Text} (hi : Function.Injective token) {n k : Nat}
    {taken : List Text} (hn : n ≤ k) (hfree : token k ∉ taken)
    (hbefore : ∀ m, n ≤ m → m < k → token m ∈ taken) : k = firstFree token n taken := by
  obtain ⟨hle, hnot⟩ : n ≤ firstFree token n taken ∧ token (firstFree token n taken) ∉ taken :=
    firstFree_spec hi fun _ ht => Or.inl ht
  rcases Nat.lt_trichotomy k (firstFree token n taken) with hlt | he | hgt
  · exact absurd (token_mem_of_lt_firstFree hn hlt) hfree
  · exact he
  · exact absurd (hbefore _ hle hgt) hnot

namespace Allocator

variable (a : Allocator) (name : Text)

theorem next_le_number : a.next ≤ a.number name :=
  (firstFree_spec (a.placeholder_injective name) fun _ ht => Or.inl ht).1

theorem placeholder_mem_taken {m : Nat} (hn : a.next ≤ m) (hm : m < a.number name) :
    a.placeholder name m ∈ a.taken :=
  token_mem_of_lt_firstFree hn hm

/-- The tokens that are passed by are different and taken, so there are not more of them than
there are taken tokens. -/
theorem number_le : a.number name ≤ a.next + a.taken.dedup.length := by
  have hinj := a.placeholder_injective name
  have hnodup : ((List.range' a.next (a.number name - a.next)).map (a.placeholder name)).Nodup :=
    (List.nodup_range' 1).map hinj
  have hsub : (List.range' a.next (a.number name - a.next)).map (a.placeholder name) ⊆
      a.taken.dedup := by
    intro t ht
    obtain ⟨m, hm, rfl⟩ := List.mem_map.mp ht
    obtain ⟨hle, hlt⟩ := List.mem_range'_1.mp hm
    exact List.mem_dedup.mpr (a.placeholder_mem_taken name hle (by omega))
  have hlength := (hnodup.subperm hsub).length_le
  rw [List.length_map, List.length_range'] at hlength
  omega

theorem number_of_taken (h : a.placeholder name a.next ∈ a.taken) :
    ({ a with next := a.next + 1 } : Allocator).number name = a.number name := by
  have hinj := a.placeholder_injective name
  have hfree : a.placeholder name (a.number name) ∉ a.taken := a.allocate_not_mem_taken name
  have hne : a.next ≠ a.number name := fun e => hfree (e ▸ h)
  have hle := a.next_le_number name
  have hbehind : a.next + 1 ≤ a.number name := by omega
  refine (eq_firstFree hinj hbehind hfree fun m hm hlt => ?_).symm
  have hm' : a.next ≤ m := Nat.le_of_succ_le hm
  exact a.placeholder_mem_taken name hm' hlt

theorem number_of_free (h : a.placeholder name a.next ∉ a.taken) : a.number name = a.next := by
  rw [number, firstFree, if_neg h]

theorem attempt_of_taken (h : a.placeholder name a.next ∈ a.taken) :
    a.attempt name = (none, { a with next := a.next + 1 }) := if_pos (List.contains_iff_mem.mpr h)

theorem attempt_of_free (h : a.placeholder name a.next ∉ a.taken) :
    a.attempt name = (some (a.placeholder name a.next),
      { a with next := a.next + 1, taken := a.placeholder name a.next :: a.taken }) :=
  if_neg (mt List.contains_iff_mem.mp h)

/-- The search is over after one turn for each number that it passes by, and one more. -/
theorem allocateWithin?_eq (turns : Nat) :
    allocateWithin? name turns a =
      if a.number name - a.next < turns then some (a.allocate name) else none := by
  induction turns generalizing a with
  | zero => rfl
  | succ turns ih =>
    rw [allocateWithin?]
    by_cases h : a.placeholder name a.next ∈ a.taken
    · have hnumber := a.number_of_taken name h
      have hlt : a.next < a.number name := by
        have hle := a.next_le_number name
        have hne : a.next ≠ a.number name :=
          fun e => a.allocate_not_mem_taken name (by rw [allocate, ← e]; exact h)
        omega
      have hsame : ({ a with next := a.next + 1 } : Allocator).allocate name = a.allocate name := by
        simp only [allocate, hnumber]
        rfl
      simp only [attempt_of_taken a name h, ih, hnumber, hsame]
      exact ite_congr (by simp only [eq_iff_iff]; omega) (fun _ => rfl) fun _ => rfl
    · rw [attempt_of_free a name h, number_of_free a name h, Nat.sub_self,
        if_pos (Nat.succ_pos turns), allocate, number_of_free a name h]

end Allocator

/-! ### Many searches -/

/-- A number is read back behind any character that is no digit, whatever stands in front of that. -/
theorem lastNumber_append (front : Text) {c : Char} (hc : c.isDigit = false) (n : Nat) :
    lastNumber (front ++ c :: Text.decimal n) = n := by
  have hdigits : ∀ d ∈ (Text.decimal n).reverse, d.isDigit := by
    intro d hd
    exact Nat.isDigit_of_mem_toDigits (by decide) (Nat.le_refl 10) (List.mem_reverse.mp hd)
  have hstop : ∀ d, (c :: front.reverse).head? = some d → d.isDigit = false := by
    intro d hd
    rwa [← Option.some.inj hd]
  have hrun := (takeWhile_append_of_stop hdigits hstop).1
  rw [lastNumber, List.reverse_append, List.reverse_cons, List.append_assoc, List.singleton_append,
    hrun, List.reverse_reverse]
  exact Nat.ofDigitChars_ten_toDigits

theorem Allocator.lastNumber_allocate (a : Allocator) (name : Text) :
    lastNumber (a.allocate name).1 = a.number name := by
  have hshape : (a.allocate name).1 =
      (a.stem ++ (name ++ ['_'])) ++ '_' :: Text.decimal (a.number name) := by
    simp [allocate, placeholder]
  rw [hshape, lastNumber_append _ rfl]

namespace Imports

variable (r : Imports) (call : Call)

theorem fst_answer : (r.answer call).1 = (r.allocator.allocate call.name).1 := by
  cases call <;> rfl

theorem allocator_answer : (r.answer call).2.allocator = (r.allocator.allocate call.name).2 := by
  cases call <;> rfl

/-- Each call takes a number that no later call can take. -/
theorem lastNumber_answer :
    r.allocator.next ≤ lastNumber (r.answer call).1 ∧
      lastNumber (r.answer call).1 < (r.answer call).2.allocator.next := by
  rw [fst_answer, allocator_answer, Allocator.lastNumber_allocate]
  exact ⟨r.allocator.next_le_number call.name, Nat.lt_succ_self _⟩

theorem mem_taken_answer {t : Text} (h : t ∈ r.allocator.taken) :
    t ∈ (r.answer call).2.allocator.taken := by
  rw [allocator_answer, Allocator.taken_allocate]
  exact List.mem_cons_of_mem _ h

theorem numbers_answers (r : Imports) (calls : List Call) :
    (∀ t ∈ r.answers calls, r.allocator.next ≤ lastNumber t) ∧
      ((r.answers calls).map lastNumber).Pairwise (· < ·) := by
  induction calls generalizing r with
  | nil => exact ⟨List.forall_mem_nil _, .nil⟩
  | cons call calls ih =>
    obtain ⟨hle, hlt⟩ := r.lastNumber_answer call
    obtain ⟨hnext, hlater⟩ := ih (r.answer call).2
    rw [answers]
    constructor
    · refine List.forall_mem_cons.mpr ⟨hle, fun t ht => ?_⟩
      have := hnext t ht
      omega
    · rw [List.map_cons, List.pairwise_cons, List.forall_mem_map]
      refine ⟨fun t ht => ?_, hlater⟩
      have := hnext t ht
      omega

theorem not_mem_taken_answers (r : Imports) (calls : List Call) :
    ∀ t ∈ r.answers calls, t ∉ r.allocator.taken := by
  induction calls generalizing r with
  | nil => exact List.forall_mem_nil _
  | cons call calls ih =>
    rw [answers]
    refine List.forall_mem_cons.mpr ⟨?_, fun t ht hm => ih _ t ht (r.mem_taken_answer call hm)⟩
    rw [fst_answer]
    exact r.allocator.allocate_not_mem_taken call.name

theorem forall₂_answers (r : Imports) (calls : List Call) :
    List.Forall₂ (fun call t => t = r.allocator.placeholder call.name (lastNumber t)) calls
      (r.answers calls) := by
  induction calls generalizing r with
  | nil => exact .nil
  | cons call calls ih =>
    have hstem : ∀ name n, (r.answer call).2.allocator.placeholder name n =
        r.allocator.placeholder name n := by
      intro name n
      rw [allocator_answer]
      rfl
    refine .cons ?_ ?_
    · rw [fst_answer, Allocator.lastNumber_allocate]
      rfl
    · have hrest := ih (r.answer call).2
      simpa only [hstem] using hrest

end Imports

/-- The search for a placeholder is over after at most one turn more than there are taken tokens, and
finds one that is not taken. The tokens that calls get one after the other end in numbers that
increase, so they differ from each other, whatever the names and the stem are. -/
theorem placeholders_of_answers (r : Imports) :
    (∀ name, r.allocator.allocateWithin? name (r.allocator.taken.dedup.length + 1) =
        some (r.allocator.allocate name) ∧
      (r.allocator.allocate name).1 ∉ r.allocator.taken) ∧
      ∀ calls,
        List.Forall₂ (fun call t => ∃ n, t =
          r.allocator.stem ++ call.name ++ ['_', '_'] ++ Text.decimal n ∧ lastNumber t = n) calls
            (r.answers calls) ∧
        ((r.answers calls).map lastNumber).Pairwise (· < ·) ∧ (r.answers calls).Nodup ∧
        ∀ t ∈ r.answers calls, t ∉ r.allocator.taken := by
  constructor
  · intro name
    refine ⟨?_, r.allocator.allocate_not_mem_taken name⟩
    have hle := r.allocator.number_le name
    rw [Allocator.allocateWithin?_eq, if_pos (by omega)]
  · intro calls
    have hincreasing := (r.numbers_answers calls).2
    have hnodup : (r.answers calls).Nodup := by
      refine (List.pairwise_map.mp hincreasing).imp ?_
      intro s t hlt he
      rw [he] at hlt
      exact Nat.lt_irrefl _ hlt
    refine ⟨(r.forall₂_answers calls).imp fun call t ht => ⟨lastNumber t, ?_, rfl⟩, hincreasing,
      hnodup, r.not_mem_taken_answers calls⟩
    conv => lhs; rw [ht]
    simp [Allocator.placeholder]

/-- A name that ends like a placeholder does not lead to one that another name has. -/
example : ({ allocator := { stem := [] } } : Imports).answers
    [.allocate ['a'], .allocate ['a', '_', '_', '0'], .allocate ['a']] =
      [['a', '_', '_', '0'], ['a', '_', '_', '0', '_', '_', '1'], ['a', '_', '_', '2']] := by
  decide +kernel

end StyleValues
