import StyleValues.Proofs.Definition.Tokens

/-!
# Tokens and their text

Tokenizing and rendering undo each other. The token lists that are read from
some text are those in which every token has the form of its kind and none
goes on in the one behind it, at every depth, and each of them is read from
its own text only (`tokenize?_eq_some_iff_tidy`).
-/

set_option autoImplicit false

namespace StyleValues

namespace Token

/-- Whether a token does not go on in the one behind it. Two runs of spaces would be one, and so
would two words; a word in front of a call would be part of its name. -/
def Apart : Token → Token → Prop
  | .space _, .space _ => False
  | .word _, .word _ => False
  | .word _, .call _ _ => False
  | _, _ => True

mutual

def Wellformed : Token → Prop
  | .word text => text ≠ [] ∧ ∀ c ∈ text, isWordChar c
  | .space text => text ≠ [] ∧ ∀ c ∈ text, isSpaceChar c
  | .divider mark => isDivider mark
  | .quoted quote value => isQuote quote ∧ QuotedBody quote value
  | .call name arguments => (∀ c ∈ name, isWordChar c) ∧ Tidy arguments

def Tidy : List Token → Prop
  | [] => True
  | t :: rest => t.Wellformed ∧ (∀ u ∈ rest.head?, t.Apart u) ∧ Tidy rest

end

/-! ### Tokens and lexemes -/

theorem head?_lexemesOf_cons (u : Token) (ts : List Token) :
    (lexemesOf (u :: ts)).head? = u.lexemes.head? := by
  cases u <;> rfl

theorem apart_lexemes_iff (t u : Token) :
    (∀ l ∈ t.lexemes.getLast?, ∀ m ∈ u.lexemes.head?, l.Apart m) ↔ t.Apart u := by
  cases t with
  | call name arguments =>
    rw [getLast?_lexemes_call]
    cases u <;> simp [Lexeme.Apart, Apart]
  | _ => cases u <;> simp [lexemes, Lexeme.Apart, Apart]

mutual

theorem canonical_lexemes_iff : ∀ t : Token, Canonical t.lexemes ↔ t.Wellformed
  | .word text => by rw [lexemes, canonical_singleton_iff, Wellformed]; rfl
  | .space text => by rw [lexemes, canonical_singleton_iff, Wellformed]; rfl
  | .divider mark => by rw [lexemes, canonical_singleton_iff, Wellformed]; rfl
  | .quoted quote value => by rw [lexemes, canonical_singleton_iff, Wellformed]; rfl
  | .call name arguments => by
    rw [canonical_call_iff, canonical_lexemesOf_iff arguments, Wellformed]

theorem canonical_lexemesOf_iff : ∀ ts : List Token, Canonical (lexemesOf ts) ↔ Tidy ts
  | [] => by
    rw [lexemesOf_nil, Tidy]
    exact iff_of_true ⟨List.forall_mem_nil _, .nil⟩ trivial
  | t :: ts => by
    have hm : (∀ l ∈ t.lexemes.getLast?, ∀ m ∈ (lexemesOf ts).head?, l.Apart m) ↔
        ∀ u ∈ ts.head?, t.Apart u := by
      cases ts with
      | nil => simp
      | cons u ts => simp only [head?_lexemesOf_cons, apart_lexemes_iff, List.head?_cons,
          Option.mem_some_iff, forall_eq']
    rw [lexemesOf_cons, Tidy, Canonical.append_iff, canonical_lexemes_iff t,
      canonical_lexemesOf_iff ts, hm, and_comm (a := Tidy ts)]

end

end Token

open Token

/-- A text is read to exactly those tokens that make it up and are tidy. -/
theorem tokenize?_eq_some_iff_tidy {s : Text} {ts : List Token} :
    tokenize? s = some ts ↔ renderAll ts = s ∧ Tidy ts := by
  rw [tokenize?_eq_some_iff, canonical_lexemesOf_iff]

end StyleValues
