import StyleValues.Proofs.Definition.ImportGrammar
import StyleValues.Proofs.Text.Cutting
import StyleValues.Proofs.Text.Trimming

/-!
# The grammar of values

A definition that is no import is a name with a colon or white space behind it
and then the value. What it is read as is found from these parts alone, so more
text behind the value only makes the value longer.
-/

set_option autoImplicit false

namespace StyleValues

open Text

def endsName (c : Char) : Bool := isBlank c || c == ':' || c == ','

structure ValueName (name : Text) : Prop where
  ne_nil : name ≠ []
  chars : ∀ c ∈ name, endsName c = false
  not_reserved : name ∉ reservedWords
  unquoted : ∀ c, name.head? = some c → isQuote c = false

inductive ValueClause : Text → Text → Prop
  | colon {blanks rest : Text} : (∀ c ∈ blanks, isBlank c) →
    ValueClause (trim rest) (blanks ++ ':' :: rest)
  | blank {blanks rest : Text} {c : Char} : (∀ c ∈ blanks, isBlank c) → blanks ≠ [] →
    endsName c = false → ValueClause (c :: rest) (blanks ++ c :: rest)

theorem endsName_of_isBlank {c : Char} (h : isBlank c) : endsName c := by
  rw [endsName, h]
  rfl

theorem ValueClause.ends {value clause : Text} (h : ValueClause value clause) {c : Char}
    (hc : clause.head? = some c) : endsName c := by
  have hblanks : ∀ {blanks tail : Text}, (∀ d ∈ blanks, isBlank d) → blanks ≠ [] →
      (blanks ++ tail).head? = some c → endsName c := by
    intro blanks tail hb hn hc
    obtain ⟨d, more, rfl⟩ := List.exists_cons_of_ne_nil hn
    cases hc
    exact endsName_of_isBlank (hb c List.mem_cons_self)
  cases h with
  | @colon blanks _ hb =>
    by_cases hn : blanks = []
    · subst hn
      cases hc
      rfl
    · exact hblanks hb hn hc
  | blank hb hn => exact hblanks hb hn hc

theorem ValueClause.valueAfter {value clause : Text} (h : ValueClause value clause) (name : Text) :
    StyleValues.valueAfter name (trimStart clause) = .ok value := by
  cases h with
  | colon hb =>
    rw [trimStart, List.dropWhile_append_of_pos hb]
    rfl
  | blank hb hn hc =>
    simp only [endsName, Bool.or_eq_false_iff, beq_eq_false_iff_ne] at hc
    rw [trimStart, List.dropWhile_append_of_pos hb, List.dropWhile_cons_of_neg (by simp [hc.1.1]),
      StyleValues.valueAfter, if_neg hc.1.2, if_neg hc.2]

theorem valueClause_of_valueAfter {name value clause : Text} (hne : value ≠ [])
    (hend : ∀ c, clause.head? = some c → endsName c)
    (h : valueAfter name (trimStart clause) = .ok value) : ValueClause value clause := by
  have hs : clause.takeWhile isBlank ++ trimStart clause = clause := List.takeWhile_append_dropWhile
  have hb : ∀ c ∈ clause.takeWhile isBlank, isBlank c := fun c hc => List.mem_takeWhile_imp hc
  have hstart : NoBlankStart (trimStart clause) := noBlankStart_dropWhile clause
  generalize clause.takeWhile isBlank = blanks at hs hb
  generalize trimStart clause = behind at hs hstart h
  subst hs
  cases behind with
  | nil =>
    cases h
    exact absurd rfl hne
  | cons c rest =>
    rw [valueAfter] at h
    split at h
    · next hc =>
      cases h
      rw [hc]
      exact .colon hb
    · next hcolon =>
      split at h
      · cases h
      · next hcomma =>
        cases h
        have hc : endsName c = false := by simp [endsName, hstart c rfl, hcolon, hcomma]
        refine .blank hb ?_ hc
        rintro rfl
        rw [hend c rfl] at hc
        cases hc

/-- A text is read as the value of a name exactly if it is one by the grammar, and the value is
more than comments. -/
theorem readValue_eq_ok_iff {s name value : Text} :
    readValue s = .ok (.value name value) ↔ ValueName name ∧
      trim (withoutComments value) ≠ [] ∧ ∃ clause, trim s = name ++ clause ∧ ValueClause value clause := by
  have hin : (fun c => !(isBlank c || c == ':' || c == ',')) = fun c => !endsName c := rfl
  constructor
  · intro h
    rw [readValue] at h
    dsimp only at h
    rw [hin] at h
    split at h
    · cases h
    next hquote =>
    split at h
    · cases h
    next hname =>
    split at h
    · cases h
    next hcheck =>
    split at h
    · cases h
    next hvalue =>
    split at h
    · cases h
    next hempty =>
    cases h
    rw [List.isEmpty_iff] at hname hempty
    have hne : value ≠ [] := by
      rintro rfl
      exact hempty (by cbv)
    have hs : (trim s).takeWhile (fun c => !endsName c) ++ (trim s).dropWhile (fun c => !endsName c) =
      trim s := List.takeWhile_append_dropWhile
    refine ⟨⟨hname, ?_, checkName_eq_ok_iff.mp hcheck, ?_⟩, hempty, _, hs.symm, ?_⟩
    · intro c hc
      simpa using List.mem_takeWhile_imp (p := fun c => !endsName c) hc
    · intro c hc
      rw [Bool.eq_false_iff]
      intro hq
      apply hquote
      rw [← hs, List.head?_append, hc]
      exact hq
    · refine valueClause_of_valueAfter hne ?_ hvalue
      intro c hc
      simpa using stop_of_dropWhile (p := fun c => !endsName c) hc
  · rintro ⟨hn, hempty, clause, hs, hc⟩
    obtain ⟨htake, hdrop⟩ := takeWhile_append_of_stop (p := fun c => !endsName c) (s := name)
      (t := clause) (fun c hm => by simp [hn.chars c hm]) (fun c hm => by simp [hc.ends hm])
    have hquote : ((name ++ clause).head?.any isQuote) = false := by
      obtain ⟨c, tail, rfl⟩ := List.exists_cons_of_ne_nil hn.ne_nil
      exact hn.unquoted c rfl
    rw [ne_eq, ← List.isEmpty_iff] at hempty
    rw [readValue, hin]
    simp only [hs, hquote, htake, hdrop, checkName_eq_ok_iff.mpr hn.not_reserved, hc.valueAfter name]
    simp [hn.ne_nil, hempty]

theorem readValue_of_read {s name value : Text} (h : Definition.read s = .ok (.value name value)) :
    readValue s = .ok (.value name value) := by
  rw [Definition.read] at h
  split at h
  · cases h
  · split at h
    · next names path _ =>
      rw [readImports] at h
      grind
    · exact h

/-- A text without the word that marks imports is read by the grammar of values. -/
theorem read_eq_readValue_of_no_from {s : Text} (hv : ¬ "@value".toList <:+: s)
    (hf : ¬ "from".toList <:+: s) : Definition.read s = readValue s := by
  refine read_eq_readValue (by rwa [← Bool.not_eq_true, hasSubtext_iff]) ?_
  rw [Option.bind_eq_none_iff]
  intro ts ht
  rw [splitAtLast?_eq_none_iff]
  intro t hm
  rw [← Bool.not_eq_true]
  intro hw
  obtain rfl := eq_word_of_isWord hw
  obtain ⟨left, right, rfl⟩ := List.append_of_mem hm
  apply hf
  rw [← (tokenize?_eq_some_iff.mp ht).1, Token.renderAll_append, Token.renderAll, Token.render]
  exact ⟨_, _, List.append_assoc ..⟩

/-! ### More text behind a value -/

section
variable {s before inside : Text}

theorem withoutComments_of_none (h : breakAt? ['/', '*'] s = none) : withoutComments s = s := by
  rw [withoutComments]
  split
  · rfl
  · next h' => rw [h] at h'; cases h'

theorem withoutComments_of_some (h : breakAt? ['/', '*'] s = some (before, inside)) :
    withoutComments s = before ++
      match breakAt? ['*', '/'] inside with
      | none => []
      | some (_, rest) => withoutComments rest := by
  rw [withoutComments]
  split
  · next h' => rw [h] at h'; cases h'
  · next h' =>
    rw [h] at h'
    cases h'
    split
    · next hi => simp [hi]
    · next hi => simp [hi]

end

section
variable {t : Text} (ht : t.head? ≠ some '*')
include ht

theorem prefix_before_comment {s before after : Text} (hs : breakAt? ['/', '*'] s = none)
    (h : breakAt? ['/', '*'] (s ++ t) = some (before, after)) : s <+: before := by
  have hn : ¬ ['/', '*'] <:+: s := by
    rw [← hasSubtext_iff, hasSubtext, hs]
    exact Bool.false_ne_true
  rcases List.append_eq_append_iff.mp (breakAt?_append h) with ⟨inside, rfl, hi⟩ | ⟨inside, rfl, -⟩
  · rcases inside with _ | ⟨c, _ | ⟨d, inside⟩⟩
    · exact ⟨[], by simp⟩
    · obtain ⟨rfl, rfl⟩ := List.cons.inj hi
      exact absurd rfl ht
    · cases hi
      exact absurd ⟨before, inside, by simp⟩ hn
  · exact List.prefix_append s inside

theorem prefix_withoutComments (s : Text) : withoutComments s <+: withoutComments (s ++ t) := by
  induction s using withoutComments.induct with
  | case1 s hs =>
    rw [withoutComments_of_none hs]
    cases hb : breakAt? ['/', '*'] (s ++ t) with
    | none =>
      rw [withoutComments_of_none hb]
      exact List.prefix_append s t
    | some parts =>
      rw [withoutComments_of_some hb]
      exact (prefix_before_comment ht hs hb).trans (List.prefix_append ..)
  | case2 s before inside hs hi =>
    rw [withoutComments_of_some hs, hi, List.append_nil,
      withoutComments_of_some (breakAt?_append_of_some hs t)]
    exact List.prefix_append ..
  | case3 s before inside hs skipped rest hi _ ih =>
    rw [withoutComments_of_some hs, hi, withoutComments_of_some (breakAt?_append_of_some hs t),
      breakAt?_append_of_some hi t]
    exact (List.prefix_append_right_inj before).mpr ih

end

section
variable {t : Text} (hne : t ≠ []) (he : NoBlankEnd t)
include hne he

theorem ValueClause.append {value clause : Text} (h : ValueClause value clause) (hv : value ≠ [])
    (hc : NoBlankEnd clause) : ValueClause (value ++ t) (clause ++ t) := by
  cases h with
  | @colon blanks rest hb =>
    have hrest : NoBlankEnd rest := hc.of_suffix ((List.suffix_cons ':' rest).trans (List.suffix_append ..))
    rw [← trim_append_of_trimmed hrest hv he hne, List.append_assoc, List.cons_append]
    exact .colon hb
  | blank hb hn hmark =>
    rw [List.append_assoc, List.cons_append]
    exact .blank hb hn hmark

theorem readValue_append {s name value : Text} (ht : t.head? ≠ some '*')
    (h : readValue s = .ok (.value name value)) :
    readValue (trim s ++ t) = .ok (.value name (value ++ t)) := by
  obtain ⟨hname, hempty, clause, hs, hclause⟩ := readValue_eq_ok_iff.mp h
  have hvalue : value ≠ [] := by
    rintro rfl
    exact hempty (by cbv)
  have htrim : trim s ≠ [] := by
    rw [hs]
    exact List.append_ne_nil_of_left_ne_nil hname.ne_nil clause
  have hend : NoBlankEnd (trim s) := noBlankEnd_trimEnd _
  have hlonger : trim (trim s ++ t) = trim s ++ t := by
    rw [trim_append_of_trimmed hend (by rwa [trim_trim]) he hne, trim_trim]
  refine readValue_eq_ok_iff.mpr ⟨hname, ?_, clause ++ t, ?_, ?_⟩
  · rw [ne_eq, trim_eq_nil_iff]
    intro hblank
    exact hempty (trim_eq_nil_iff.mpr fun c hc =>
      hblank c ((prefix_withoutComments ht value).subset hc))
  · rw [hlonger, hs, List.append_assoc]
  · refine hclause.append hne he hvalue ?_
    rw [hs] at hend
    exact hend.of_suffix (List.suffix_append ..)

end

end StyleValues
