import StyleValues.Text.Blank

/-!
# Lexemes of a definition

The text behind `@value` is cut into words, quoted strings, runs of spaces,
dividers and parentheses. A word that touches an opening parenthesis belongs
to it. White space other than spaces, tabs and line ends fits none of these,
and neither does a string without its closing quote, so such texts have no
lexemes at all.
-/

set_option autoImplicit false

namespace StyleValues

inductive Lexeme where
  | word (text : Text)
  | space (text : Text)
  /-- A comma, a colon or a slash. -/
  | divider (mark : Char)
  /-- A quoted string; the value is the raw text between the quotes. -/
  | quoted (quote : Char) (value : Text)
  /-- An opening parenthesis with the word in front of it, if any. -/
  | opening (name : Text)
  | closing
deriving DecidableEq, Repr

def Lexeme.render : Lexeme → Text
  | .word text => text
  | .space text => text
  | .divider mark => [mark]
  | .quoted quote value => quote :: (value ++ [quote])
  | .opening name => name ++ ['(']
  | .closing => [')']

def isSpaceChar (c : Char) : Bool := c == ' ' || c == '\t' || c == '\r' || c == '\n'

def isDivider (c : Char) : Bool := c == ',' || c == ':' || c == '/'

def isQuote (c : Char) : Bool := c == '"' || c == '\''

def isWordChar (c : Char) : Bool :=
  !isBlank c && !isDivider c && !isQuote c && c != '(' && c != ')'

/-- The text up to the quote that closes a string, and what follows that quote.
A backslash takes the next character with it, whatever it is. -/
def takeQuoted? (quote : Char) : (escaped : Bool) → Text → Option (Text × Text)
  | _, [] => none
  | true, c :: rest => (takeQuoted? quote false rest).map fun parts => (c :: parts.1, parts.2)
  | false, c :: rest =>
    if c = quote then some ([], rest)
    else (takeQuoted? quote (c == '\\') rest).map fun parts => (c :: parts.1, parts.2)

theorem takeQuoted?_append {quote : Char} {escaped : Bool} {s value rest : Text}
    (h : takeQuoted? quote escaped s = some (value, rest)) : value ++ quote :: rest = s := by
  induction s generalizing escaped value with
  | nil => cases escaped <;> simp [takeQuoted?] at h
  | cons c s ih =>
    cases escaped with
    | true =>
      rw [takeQuoted?] at h
      obtain ⟨parts, hp, he⟩ := Option.map_eq_some_iff.mp h
      cases he
      simpa using ih hp
    | false =>
      rw [takeQuoted?] at h
      split at h
      · next hc => cases h; simp [hc]
      · obtain ⟨parts, hp, he⟩ := Option.map_eq_some_iff.mp h
        cases he
        simpa using ih hp

def afterWord (word : Text) : Text → Lexeme × Text
  | [] => (.word word, [])
  | c :: rest => if c = '(' then (.opening word, rest) else (.word word, c :: rest)

theorem afterWord_render (word s : Text) :
    (afterWord word s).1.render ++ (afterWord word s).2 = word ++ s := by
  cases s with
  | nil => simp [afterWord, Lexeme.render]
  | cons c s =>
    rw [afterWord]
    split
    · next hc => simp [Lexeme.render, hc]
    · simp [Lexeme.render]

def nextLexeme? : Text → Option (Lexeme × Text)
  | [] => none
  | c :: rest =>
    if isSpaceChar c then
      some (.space (c :: rest.takeWhile isSpaceChar), rest.dropWhile isSpaceChar)
    else if isDivider c then some (.divider c, rest)
    else if isQuote c then
      (takeQuoted? c false rest).map fun parts => (.quoted c parts.1, parts.2)
    else if c = '(' then some (.opening [], rest)
    else if c = ')' then some (.closing, rest)
    else if isWordChar c then
      some (afterWord (c :: rest.takeWhile isWordChar) (rest.dropWhile isWordChar))
    else none

theorem nextLexeme?_render {s rest : Text} {lexeme : Lexeme}
    (h : nextLexeme? s = some (lexeme, rest)) : lexeme.render ++ rest = s := by
  cases s with
  | nil => simp [nextLexeme?] at h
  | cons c s =>
    rw [nextLexeme?] at h
    split at h
    · cases h; simp [Lexeme.render]
    · split at h
      · cases h; rfl
      · split at h
        · obtain ⟨parts, hp, he⟩ := Option.map_eq_some_iff.mp h
          cases he
          simp [Lexeme.render, takeQuoted?_append hp]
        · split at h
          · next hc => cases h; simp [Lexeme.render, hc]
          · split at h
            · next hc => cases h; simp [Lexeme.render, hc]
            · split at h
              · have e := afterWord_render (c :: s.takeWhile isWordChar) (s.dropWhile isWordChar)
                rw [Option.some.inj h] at e
                simpa using e
              · cases h

theorem afterWord_ne_nil {word : Text} (h : word ≠ []) (s : Text) :
    (afterWord word s).1.render ≠ [] := by
  cases s with
  | nil => exact h
  | cons c s =>
    rw [afterWord]
    split
    · simp [Lexeme.render]
    · exact h

theorem nextLexeme?_ne_nil {s rest : Text} {lexeme : Lexeme}
    (h : nextLexeme? s = some (lexeme, rest)) : lexeme.render ≠ [] := by
  cases s with
  | nil => simp [nextLexeme?] at h
  | cons c s =>
    rw [nextLexeme?] at h
    split at h
    · cases h; simp [Lexeme.render]
    · split at h
      · cases h; simp [Lexeme.render]
      · split at h
        · obtain ⟨parts, hp, he⟩ := Option.map_eq_some_iff.mp h
          cases he
          simp [Lexeme.render]
        · split at h
          · cases h; simp [Lexeme.render]
          · split at h
            · cases h; simp [Lexeme.render]
            · split at h
              · have n := afterWord_ne_nil (List.cons_ne_nil c (s.takeWhile isWordChar))
                  (s.dropWhile isWordChar)
                rw [Option.some.inj h] at n
                exact n
              · cases h

theorem nextLexeme?_length_lt {s rest : Text} {lexeme : Lexeme}
    (h : nextLexeme? s = some (lexeme, rest)) : rest.length < s.length := by
  have hp := List.length_pos_iff.mpr (nextLexeme?_ne_nil h)
  rw [← nextLexeme?_render h, List.length_append]
  omega

def lexemes? (s : Text) : Option (List Lexeme) :=
  match s with
  | [] => some []
  | c :: tail =>
    match h : nextLexeme? (c :: tail) with
    | none => none
    | some (lexeme, rest) =>
      have := nextLexeme?_length_lt h
      (lexemes? rest).map (lexeme :: ·)
termination_by s.length
decreasing_by exact this

end StyleValues
