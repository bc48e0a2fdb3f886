import StyleValues.Bindings
import StyleValues.Proofs.Text.Pieces

/-!
# Tokens after a substitution

Tokens are the runs of token characters, and substitution is a change of these
runs. So the tokens found after a substitution are the tokens without a value
and those of the values: a value never joins the text around it to a new token.
-/

set_option autoImplicit false

namespace StyleValues

open Text

theorem tokensIn_eq_runs (s : Text) : tokensIn s = runs isTokenChar s := by
  have h : ∀ run : Text, tokensFrom run s =
      cutFrom isTokenChar (fun r => if r.isEmpty then [] else [r]) (fun _ => []) run s := by
    induction s with
    | nil => intro run; rfl
    | cons c s ih =>
      intro run
      rw [tokensFrom, cutFrom, ih, ih, List.nil_append]
  exact h []

theorem mem_tokensIn {t s : Text} (h : t ∈ tokensIn s) : t ≠ [] ∧ ∀ c ∈ t, isTokenChar c := by
  rw [tokensIn_eq_runs] at h
  exact mem_runs h

section
variable {lookup : Text → Option Text}

theorem substitute_eq_mapRuns (s : Text) :
    substitute lookup s = mapRuns isTokenChar (substituteToken lookup) s := by
  have h : ∀ run : Text, substituteFrom lookup run s =
      cutFrom isTokenChar (substituteToken lookup) (fun c => [c]) run s := by
    induction s with
    | nil => intro run; rfl
    | cons c s ih =>
      intro run
      rw [substituteFrom, cutFrom, ih, ih, List.singleton_append]
  exact h []

theorem substitute_append {a b : Text}
    (h : a.getLast?.any isTokenChar = false ∨ b.head?.any isTokenChar = false) :
    substitute lookup (a ++ b) = substitute lookup a ++ substitute lookup b := by
  rw [substitute_eq_mapRuns, substitute_eq_mapRuns, substitute_eq_mapRuns, mapRuns_append rfl h]

theorem substituteToken_of_ne_nil {t : Text} (h : t ≠ []) :
    substituteToken lookup t = (lookup t).getD t := by
  cases t with
  | nil => exact absurd rfl h
  | cons c t => rfl

theorem substitute_token {t : Text} (h : t ≠ []) (ht : ∀ c ∈ t, isTokenChar c) :
    substitute lookup t = (lookup t).getD t := by
  rw [substitute_eq_mapRuns, mapRuns_of_all ht, substituteToken_of_ne_nil h]

/-- The tokens after a substitution, in the order of the text. -/
theorem tokensIn_substitute (s : Text) :
    tokensIn (substitute lookup s) =
      (tokensIn s).flatMap fun t => ((lookup t).map tokensIn).getD [t] := by
  have ht : ∀ t ∈ runs isTokenChar s, runs isTokenChar (substituteToken lookup t) =
      ((lookup t).map tokensIn).getD [t] := by
    intro t ht
    obtain ⟨hn, hw⟩ := mem_runs ht
    rw [substituteToken_of_ne_nil hn]
    cases lookup t with
    | some value => exact (tokensIn_eq_runs value).symm
    | none =>
      rw [Option.getD_none, runs_of_all hw, if_neg (fun he => hn (List.isEmpty_iff.mp he))]
      rfl
  rw [tokensIn_eq_runs, tokensIn_eq_runs, substitute_eq_mapRuns, runs_mapRuns rfl]
  exact List.flatMap_congr ht

theorem substitute_eq_self {s : Text} (h : ∀ t ∈ tokensIn s, lookup t = none) :
    substitute lookup s = s := by
  rw [substitute_eq_mapRuns]
  refine mapRuns_eq_self rfl fun t ht => ?_
  rw [← tokensIn_eq_runs] at ht
  rw [substituteToken_of_ne_nil (mem_tokensIn ht).1, h t ht, Option.getD_none]

/-- A second substitution changes nothing if no value has a token with a value. -/
theorem substitute_substitute (h : ∀ t v, lookup t = some v → ∀ u ∈ tokensIn v, lookup u = none)
    (s : Text) : substitute lookup (substitute lookup s) = substitute lookup s := by
  apply substitute_eq_self
  intro u hu
  rw [tokensIn_substitute, List.mem_flatMap] at hu
  obtain ⟨t, -, hu⟩ := hu
  cases ht : lookup t with
  | some v =>
    rw [ht] at hu
    exact h t v ht u hu
  | none =>
    rw [ht] at hu
    rw [List.mem_singleton.mp hu, ht]

end

theorem Bindings.value?_eq_none {bs : Bindings} {t : Text} (h : ∀ b ∈ bs.entries, b.name ≠ t) :
    bs.value? t = none := by
  rw [Bindings.value?, Bindings.find?, Option.map_eq_none_iff, List.find?_eq_none]
  intro b hb he
  exact h b hb (beq_iff_eq.mp he)

/-- The tokens of a text after a substitution are those of the text, each that has a value replaced
by the tokens of the value. So a text in which all names are resolved stays as it is when they are
resolved again, if no value has a name among its tokens. -/
theorem tokens_of_substitute_of_resolve (s : Text) :
    (∀ lookup : Text → Option Text, maximalRuns isTokenChar (substitute lookup s) =
      (maximalRuns isTokenChar s).flatMap fun t =>
        match lookup t with
        | some value => maximalRuns isTokenChar value
        | none => [t]) ∧
      ∀ bs : Bindings,
        (∀ b ∈ bs.entries, ∀ b' ∈ bs.entries, b'.name ∉ maximalRuns isTokenChar b.value) →
          bs.resolve (bs.resolve s) = bs.resolve s := by
  have hruns : ∀ t, maximalRuns isTokenChar t = tokensIn t := by
    intro t
    rw [tokensIn_eq_runs, runs_eq_maximalRuns]
  simp only [hruns]
  constructor
  · intro lookup
    rw [tokensIn_substitute]
    refine List.flatMap_congr fun t _ => ?_
    cases lookup t <;> rfl
  · intro bs hb
    refine substitute_substitute ?_ s
    intro t v hv u hu
    obtain ⟨b, hf, rfl⟩ := Option.map_eq_some_iff.mp hv
    apply Bindings.value?_eq_none
    rintro b' hb' rfl
    exact hb b (List.mem_of_find?_eq_some hf) b' hb' hu

def vanishing : Bindings :=
  (Bindings.define {} ⟨['a'], "b-x .c".toList, .document⟩).define ⟨['b'], [], .document⟩

/-- An empty value leaves no token, and joins none. -/
theorem tokens_of_substitute_of_resolve_vanishing :
    (∀ b ∈ vanishing.entries, ∀ b' ∈ vanishing.entries,
        b'.name ∉ maximalRuns isTokenChar b.value) ∧
      maximalRuns isTokenChar (vanishing.resolve "a(b)-a b".toList) =
        ["b-x".toList, ".c".toList, "-a".toList] ∧
      vanishing.resolve (vanishing.resolve "a(b)-a b".toList) = "b-x .c()-a ".toList := by
  have he : vanishing.entries = [⟨['a'], "b-x .c".toList, .document⟩, ⟨['b'], [], .document⟩] := rfl
  have hb : ∀ b ∈ vanishing.entries, ∀ b' ∈ vanishing.entries,
      b'.name ∉ maximalRuns isTokenChar b.value := by
    simp only [he, List.forall_mem_cons]
    decide
  obtain ⟨htokens, hagain⟩ := tokens_of_substitute_of_resolve "a(b)-a b".toList
  exact ⟨hb, (htokens vanishing.value?).trans rfl, (hagain vanishing hb).trans rfl⟩

end StyleValues
