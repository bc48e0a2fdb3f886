import StyleValues.Text.Quoted

/-!
# Faults of a style sheet

What makes a text no style sheet, with the byte offset at which it shows.
-/

set_option autoImplicit false

namespace StyleValues

inductive Fault where
  /-- A block is open at the end; the offset is that of its brace. -/
  | unclosedBlock (offset : Nat)
  | unclosedComment (offset : Nat)
  | unclosedString (offset : Nat)
  /-- A closing brace stands outside every block. -/
  | unexpectedCloseBrace (offset : Nat)
  /-- A statement is neither a rule nor a declaration. -/
  | unknownWord (word : Text) (offset : Nat)
  | missingAtRuleName (offset : Nat)
deriving DecidableEq, Repr

namespace Fault

def offset : Fault → Nat
  | unclosedBlock n => n
  | unclosedComment n => n
  | unclosedString n => n
  | unexpectedCloseBrace n => n
  | unknownWord _ n => n
  | missingAtRuleName n => n

/-- The same fault in a text that stands `n` bytes further on. -/
def shift (n : Nat) : Fault → Fault
  | unclosedBlock m => unclosedBlock (n + m)
  | unclosedComment m => unclosedComment (n + m)
  | unclosedString m => unclosedString (n + m)
  | unexpectedCloseBrace m => unexpectedCloseBrace (n + m)
  | unknownWord word m => unknownWord word (n + m)
  | missingAtRuleName m => missingAtRuleName (n + m)

theorem offset_shift (n : Nat) (f : Fault) : (f.shift n).offset = n + f.offset := by
  cases f <;> rfl

theorem shift_shift (m n : Nat) (f : Fault) : (f.shift n).shift m = f.shift (m + n) := by
  cases f <;> simp [shift, Nat.add_assoc]

def message : Fault → Text
  | unclosedBlock n => "unclosed block starting at offset ".toList ++ Text.decimal n
  | unclosedComment n => "unclosed comment starting at offset ".toList ++ Text.decimal n
  | unclosedString n => "unclosed string starting at offset ".toList ++ Text.decimal n
  | unexpectedCloseBrace n => "unexpected '\x7d' at offset ".toList ++ Text.decimal n
  | unknownWord word n =>
    "unknown word ".toList ++ word.quoted ++ " at offset ".toList ++ Text.decimal n
  | missingAtRuleName n => "at-rule without a name at offset ".toList ++ Text.decimal n

end Fault

end StyleValues
