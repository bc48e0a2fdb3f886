import StyleValues.Interchange.Entries
import StyleValues.Proofs.Sheet.ClosedTexts

/-!
# Entries that are read back

An entry is written as its name, a colon and its value. If the name is made of
name characters, and if the value leaves no string, comment, escape or
parenthesis open, then that text is read as the entry again.
-/

set_option autoImplicit false

namespace StyleValues

open Text

def Identifier (name : Text) : Prop := name ≠ [] ∧ ∀ c ∈ name, isNameChar c

/-! ### Name characters -/

def statementMarks : List Char :=
  ['\\', '"', '\'', '/', '(', ')', ':', ';', '{', '}', '@']

theorem not_mem_marks_of_isNameChar {c : Char} (h : isNameChar c) : c ∉ statementMarks := by
  have hall : statementMarks.all (fun d => !isNameChar d) = true := rfl
  intro hc
  have hn := List.all_eq_true.mp hall c hc
  rw [h] at hn
  cases hn

theorem splitAtColon?_of_names {s : Text} (h : ∀ c ∈ s, isNameChar c) (t : Text) :
    splitAtColon? (s ++ ':' :: t) = some (s, t) := by
  induction s with
  | nil => rfl
  | cons c s ih =>
    obtain ⟨hc, hs⟩ := List.forall_mem_cons.mp h
    have hm := not_mem_marks_of_isNameChar hc
    simp only [statementMarks, List.mem_cons, List.not_mem_nil, or_false, not_or] at hm
    have hf : (ColonSearch.plain 0).finds c = false := by simp [ColonSearch.finds, hm]
    have hstep : (ColonSearch.plain 0).step c = .plain 0 := by simp [ColonSearch.step, hm]
    have ih := ih hs
    rw [splitAtColon?] at ih
    rw [List.cons_append, splitAtColon?, ColonSearch.split?, hf, hstep, ih]
    rfl

/-! ### Entries -/

theorem Identifier.leadText {name : Text} (hn : Identifier name) : LeadText name := by
  obtain ⟨hne, hc⟩ := hn
  have hb : ∀ c ∈ name, isBlank c = false := by
    intro c hm
    rw [Bool.eq_false_iff]
    intro h
    have hc := hc c hm
    rw [isNameChar_of_isBlank h] at hc
    cases hc
  have hstart : ∀ mark tail, mark ∈ statementMarks → ¬ mark :: tail <+: name := by
    rintro mark tail hm ⟨rest, rfl⟩
    exact not_mem_marks_of_isNameChar (hc mark (List.mem_cons_self ..)) hm
  have hself : SelfContained name := selfContained_of_neutral (neutral_of_names hc)
  have hpart : PartText name := partText_iff.mpr
    ⟨fun c h => hb c (List.mem_of_head? h), fun c h => hb c (List.mem_of_getLast? h), hself⟩
  exact ⟨hpart, hne, hstart '@' [] (by decide), hstart '/' ['*'] (by decide)⟩

theorem Identifier.propertyText {name : Text} (hn : Identifier name) : PropertyText name :=
  hn.leadText.propertyText (splitAtColon?_of_names hn.2 [])

structure PlainEntry (e : Text × Text) : Prop where
  name : PropertyText e.1
  value : PlainValue e.2
  value_ne_nil : e.2 ≠ []

theorem plainEntry_of_identifiers {e : Text × Text} (h : Identifier e.1 ∧ Identifier e.2) :
    PlainEntry e :=
  ⟨h.1.propertyText, partText_iff.mp h.2.leadText.toPartText, h.2.1⟩

theorem plainEntries_of_identifiers {entries : List (Text × Text)}
    (h : ∀ e ∈ entries, Identifier e.1 ∧ Identifier e.2) : ∀ e ∈ entries, PlainEntry e :=
  fun e he => plainEntry_of_identifiers (h e he)

theorem readsBack_newEntry (indent : Option Text) {e : Text × Text}
    (hi : (indent.getD Layout.declaration.before).all isFiller) (he : PlainEntry e) (next : Text) :
    Placed.ReadsBack ⟨(newEntry indent e.1 e.2).opening, next⟩ :=
  readsBack_declaration hi he.name he.value next

end StyleValues
