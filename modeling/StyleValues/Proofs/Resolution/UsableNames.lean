import StyleValues.Proofs.Definition.Values
import StyleValues.Proofs.Substitution.Tokens

/-!
# Names that are substituted

The grammar lets a name hold characters that no token holds. Such a name is
defined and published, but no text has a token that is the name. A name of
token characters alone is a token wherever nothing else touches it, and is
replaced there.
-/

set_option autoImplicit false

namespace StyleValues

def Definition.names : Definition → List Text
  | .value name _ => [name]
  | .imports _ entries => entries.map ImportedName.name

theorem ne_nil_of_mem_names {params name : Text} {d : Definition}
    (h : Definition.read params = .ok d) (hn : name ∈ d.names) : name ≠ [] := by
  cases d with
  | value own value =>
    obtain rfl := List.mem_singleton.mp hn
    exact (readValue_eq_ok_iff.mp (readValue_of_read h)).1.ne_nil
  | imports path entries =>
    obtain ⟨entry, he, rfl⟩ := List.mem_map.mp hn
    exact (nameWords_of_read h entry he).2.ne_nil

section
variable {name : Text}

theorem tokensIn_eq_singleton_iff (hne : name ≠ []) :
    tokensIn name = [name] ↔ ∀ c ∈ name, isTokenChar c := by
  constructor
  · intro h
    have hm : name ∈ tokensIn name := by
      rw [h]
      exact List.mem_singleton_self name
    exact (mem_tokensIn hm).2
  · intro hc
    rw [tokensIn_eq_runs, Text.runs_of_all hc, if_neg (by rwa [List.isEmpty_iff])]

def Bindings.only (name value : Text) (origin : Origin) : Bindings :=
  Bindings.define {} ⟨name, value, origin⟩

theorem Bindings.value?_only (name value : Text) (origin : Origin) (t : Text) :
    (Bindings.only name value origin).value? t = if name = t then some value else none := by
  rw [Bindings.value?, Bindings.find?]
  by_cases h : name = t
  · simp [Bindings.only, Bindings.define, Binding.insertInto, h]
  · simp [Bindings.only, Bindings.define, Binding.insertInto, h]

/-- A token in a text is replaced, and the text on either side is resolved by itself. -/
theorem resolve_only_append (hne : name ≠ []) (hc : ∀ c ∈ name, isTokenChar c) (value : Text)
    (origin : Origin) {left right : Text} (hl : left.getLast?.any isTokenChar = false)
    (hr : right.head?.any isTokenChar = false) :
    (Bindings.only name value origin).resolve (left ++ name ++ right) =
      (Bindings.only name value origin).resolve left ++ value ++
        (Bindings.only name value origin).resolve right := by
  have hvalue : substitute (Bindings.only name value origin).value? name = value := by
    rw [substitute_token hne hc, Bindings.value?_only, if_pos rfl, Option.getD_some]
  rw [Bindings.resolve, Bindings.resolve, Bindings.resolve, substitute_append (.inr hr),
    substitute_append (.inl hl), hvalue]

theorem resolve_only_eq_self (h : ¬ ∀ c ∈ name, isTokenChar c) (value : Text) (origin : Origin)
    (s : Text) : (Bindings.only name value origin).resolve s = s := by
  apply substitute_eq_self
  intro t ht
  rw [Bindings.value?_only, if_neg]
  rintro rfl
  exact h (mem_tokensIn ht).2

end

/-- A name that a statement defines is a token exactly if it has only token characters. Then a table
with that name alone replaces it by its value wherever no token character touches it; otherwise such
a table leaves every text as it is. -/
theorem resolve_of_mem_names {params name : Text} {d : Definition}
    (h : Definition.read params = .ok d) (hn : name ∈ d.names) (value : Text) (origin : Origin) :
    let table := Bindings.only name value origin
    (tokensIn name = [name] ↔ ∀ c ∈ name, isTokenChar c) ∧
      (tokensIn name = [name] → ∀ left right : Text, left.getLast?.any isTokenChar = false →
        right.head?.any isTokenChar = false →
          table.resolve (left ++ name ++ right) = table.resolve left ++ value ++ table.resolve right) ∧
      (tokensIn name ≠ [name] → ∀ s : Text, table.resolve s = s) := by
  have hne := ne_nil_of_mem_names h hn
  have htoken := tokensIn_eq_singleton_iff hne
  refine ⟨htoken, ?_, ?_⟩
  · intro ht left right hl hr
    exact resolve_only_append hne (htoken.mp ht) value origin hl hr
  · intro ht s
    exact resolve_only_eq_self (fun hc => ht (htoken.mpr hc)) value origin s

/-- An import of a name that is a token and of a name that is none. -/
theorem resolve_of_mem_names_imported :
    Definition.read "a as ü.x, b+c from 'p'".toList =
        .ok (.imports ['p'] [⟨['a'], "ü.x".toList⟩, ⟨"b+c".toList, "b+c".toList⟩]) ∧
      (Bindings.only "ü.x".toList ['v'] (.imported ['p'])).resolve "(ü.x)-ü.x".toList =
        "(v)-ü.x".toList ∧
      (Bindings.only "b+c".toList ['v'] (.imported ['p'])).resolve "b+c".toList = "b+c".toList := by
  have hr : Definition.read "a as ü.x, b+c from 'p'".toList =
      .ok (.imports ['p'] [⟨['a'], "ü.x".toList⟩, ⟨"b+c".toList, "b+c".toList⟩]) := by
    rw [read_eq_readImports (by cbv) (by cbv)]
    cbv
  have htokens : tokensIn "b+c".toList ≠ ["b+c".toList] := by
    have ht : tokensIn "b+c".toList = [['b'], ['c']] := rfl
    rw [ht]
    decide
  have hnames : Definition.names
      (.imports ['p'] [⟨['a'], "ü.x".toList⟩, ⟨"b+c".toList, "b+c".toList⟩]) =
        ["ü.x".toList, "b+c".toList] := rfl
  have hfirst : "ü.x".toList ∈ ["ü.x".toList, "b+c".toList] := by simp
  have hsecond : "b+c".toList ∈ ["ü.x".toList, "b+c".toList] := by simp
  rw [← hnames] at hfirst hsecond
  obtain ⟨-, hreplaced, -⟩ := resolve_of_mem_names hr hfirst ['v'] (.imported ['p'])
  obtain ⟨-, -, hkept⟩ := resolve_of_mem_names hr hsecond ['v'] (.imported ['p'])
  exact ⟨hr, (hreplaced rfl ['('] ")-ü.x".toList rfl rfl).trans rfl, hkept htokens _⟩

/-- A name with a slash is defined and never found. -/
theorem name_of_two_tokens :
    Definition.read "a/b: c".toList = .ok (.value "a/b".toList ['c']) ∧
      tokensIn "a/b".toList = [['a'], ['b']] ∧
      (Bindings.only "a/b".toList ['c'] .document).resolve "a/b".toList = "a/b".toList := by
  refine ⟨?_, rfl, rfl⟩
  rw [read_eq_readValue (by cbv) (by cbv)]
  cbv

end StyleValues
