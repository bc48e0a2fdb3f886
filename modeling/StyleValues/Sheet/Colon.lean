import StyleValues.Text.Basic

/-!
# The colon of a declaration

A declaration is split at its first colon outside quoted strings and
parentheses. A backslash counts only inside a string, where it takes the
following character with it.
-/

set_option autoImplicit false

namespace StyleValues

inductive ColonSearch where
  | plain (depth : Nat)
  | quoted (depth : Nat) (quote : Char)
  /-- Behind a backslash in a quoted string. -/
  | escape (depth : Nat) (quote : Char)
deriving DecidableEq, Repr

namespace ColonSearch

def step : ColonSearch → Char → ColonSearch
  | .plain d, c =>
    if c = '"' ∨ c = '\'' then .quoted d c
    else if c = '(' then .plain (d + 1)
    else if c = ')' then .plain (d - 1)
    else .plain d
  | .quoted d q, c => if c = '\\' then .escape d q else if c = q then .plain d else .quoted d q
  | .escape d q, _ => .quoted d q

def finds (s : ColonSearch) (c : Char) : Bool := s == .plain 0 && c == ':'

def split? (s : ColonSearch) : Text → Option (Text × Text)
  | [] => none
  | c :: rest =>
    if s.finds c then some ([], rest)
    else ((s.step c).split? rest).map fun parts => (c :: parts.1, parts.2)

theorem split?_append {s : ColonSearch} {text left right : Text}
    (h : s.split? text = some (left, right)) : left ++ ':' :: right = text := by
  induction text generalizing s left with
  | nil => simp [split?] at h
  | cons c rest ih =>
    rw [split?] at h
    split at h
    · next hf =>
      cases h
      simp only [finds, Bool.and_eq_true, beq_iff_eq] at hf
      simp [hf.2]
    · obtain ⟨parts, hp, he⟩ := Option.map_eq_some_iff.mp h
      cases he
      simpa using ih hp

end ColonSearch

def splitAtColon? (text : Text) : Option (Text × Text) := (ColonSearch.plain 0).split? text

def findColon? (text : Text) : Option Nat :=
  (splitAtColon? text).map fun parts => parts.1.byteLength

end StyleValues
