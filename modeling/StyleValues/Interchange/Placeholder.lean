import StyleValues.Text.Basic

/-!
# Placeholders

An imported name gets a placeholder, a token that stands for its value. The
token ends in a number that is never used twice, and tokens that the document
already has are passed over.
-/

set_option autoImplicit false

namespace StyleValues

structure Allocator where
  /-- What every placeholder begins with. -/
  stem : Text
  /-- The next number to try. -/
  next : Nat := 0
  taken : List Text := []
deriving Repr

/-- The first number from `n` on whose token is not taken. A taken token that
is met is not met again, so it is struck off the list. -/
def firstFree (token : Nat → Text) (n : Nat) (taken : List Text) : Nat :=
  if token n ∈ taken then firstFree token (n + 1) (taken.erase (token n)) else n
termination_by taken.length
decreasing_by
  next h =>
    have := List.length_erase_of_mem h
    have := List.length_pos_of_mem h
    omega

namespace Allocator

def placeholder (a : Allocator) (name : Text) (n : Nat) : Text :=
  a.stem ++ (name ++ ('_' :: '_' :: Text.decimal n))

def number (a : Allocator) (name : Text) : Nat := firstFree (a.placeholder name) a.next a.taken

def allocate (a : Allocator) (name : Text) : Text × Allocator :=
  let token := a.placeholder name (a.number name)
  (token, { a with next := a.number name + 1, taken := token :: a.taken })

end Allocator

end StyleValues
