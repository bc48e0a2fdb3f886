/-!
# Texts

A text is a list of characters. Positions reported to a user are byte
offsets, and `byteLength` is the only bridge from characters to bytes: every
offset in the library is the byte length of the text in front of it.
-/

set_option autoImplicit false

namespace StyleValues

abbrev Text := List Char

namespace Text

def byteLength : Text → Nat
  | [] => 0
  | c :: rest => c.utf8Size + byteLength rest

theorem byteLength_append (s t : Text) : byteLength (s ++ t) = byteLength s + byteLength t := by
  induction s with
  | nil => simp [byteLength]
  | cons c s ih => simp [byteLength, ih, Nat.add_assoc]

theorem length_le_byteLength (s : Text) : s.length ≤ byteLength s := by
  induction s with
  | nil => simp [byteLength]
  | cons c s ih =>
    have := c.utf8Size_pos
    simp only [byteLength, List.length_cons]
    omega

/-- The text from byte offset `n` on. An offset inside a character stands for
the end of that character, and one past the end for the end of the text. -/
def dropBytes : Nat → Text → Text
  | _, [] => []
  | n, c :: rest => if n = 0 then c :: rest else dropBytes (n - c.utf8Size) rest

def breakAt? (pattern : Text) : Text → Option (Text × Text)
  | [] => if pattern.isEmpty then some ([], []) else none
  | c :: rest =>
    if pattern.isPrefixOf (c :: rest) then some ([], (c :: rest).drop pattern.length)
    else (breakAt? pattern rest).map fun parts => (c :: parts.1, parts.2)

theorem breakAt?_append {pattern s before after : Text}
    (h : breakAt? pattern s = some (before, after)) : before ++ (pattern ++ after) = s := by
  induction s generalizing before with
  | nil =>
    rw [breakAt?] at h
    split at h
    · next hp => simp_all
    · cases h
  | cons c rest ih =>
    rw [breakAt?] at h
    split at h
    · next hp =>
      cases h
      obtain ⟨tail, ht⟩ := List.isPrefixOf_iff_prefix.mp hp
      rw [← ht]
      simp
    · obtain ⟨parts, hb, he⟩ := Option.map_eq_some_iff.mp h
      cases he
      simpa using ih hb

def hasSubtext (pattern s : Text) : Bool := (breakAt? pattern s).isSome

def equalsIgnoringCase (s t : Text) : Bool := s.map Char.toLower == t.map Char.toLower

def decimal (n : Nat) : Text := Nat.toDigits 10 n

end Text

end StyleValues
