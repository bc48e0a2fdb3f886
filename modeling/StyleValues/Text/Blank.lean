import StyleValues.Text.Basic

/-!
# White space

The characters with the Unicode property White_Space, and the padding they
form around a text. `padding` only cuts: its three parts put together are the
text again.
-/

set_option autoImplicit false

namespace StyleValues

/-- Whether a character has the property White_Space. -/
def isBlank (c : Char) : Bool :=
  let n := c.toNat
  (9 ≤ n && n ≤ 13) || n == 0x20 || n == 0x85 || n == 0xa0 || n == 0x1680 ||
    (0x2000 ≤ n && n ≤ 0x200a) || n == 0x2028 || n == 0x2029 || n == 0x202f ||
    n == 0x205f || n == 0x3000

namespace Text

def trimStart (s : Text) : Text := s.dropWhile isBlank

def trimEnd (s : Text) : Text := (s.reverse.dropWhile isBlank).reverse

def trailingBlanks (s : Text) : Text := (s.reverse.takeWhile isBlank).reverse

def trim (s : Text) : Text := trimEnd (trimStart s)

theorem trimEnd_append (s : Text) : trimEnd s ++ trailingBlanks s = s := by
  rw [trimEnd, trailingBlanks, ← List.reverse_append, List.takeWhile_append_dropWhile,
    List.reverse_reverse]

structure Padded where
  leading : Text
  body : Text
  trailing : Text
deriving DecidableEq, Repr

/-- Takes the white space off both ends; if there is nothing else, all of it leads. -/
def padding (s : Text) : Padded where
  leading := s.takeWhile isBlank
  body := trimEnd (s.dropWhile isBlank)
  trailing := trailingBlanks (s.dropWhile isBlank)

theorem padding_append (s : Text) :
    (padding s).leading ++ ((padding s).body ++ (padding s).trailing) = s := by
  simp [padding, trimEnd_append]

end Text

end StyleValues
