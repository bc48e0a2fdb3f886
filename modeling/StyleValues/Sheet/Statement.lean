import StyleValues.Sheet.Fault

/-!
# Where a statement ends

A statement runs to the first semicolon or brace that stands in plain code
outside parentheses. Escaped characters, quoted strings and comments are
passed over, so none of their characters ends a statement.

The text is read one character at a time. What was read so far matters only
through a `Reading`, the depth of the open parentheses and the kind of text
that the next character belongs to.
-/

set_option autoImplicit false

namespace StyleValues

inductive Terminator where
  | semicolon
  | openBrace
  | closeBrace
  | endOfText
deriving DecidableEq, Repr

def Terminator.ofChar (c : Char) : Terminator :=
  if c = ';' then .semicolon else if c = '{' then .openBrace else .closeBrace

inductive Reading.Mode where
  | code
  /-- In code, right behind a slash that may open a comment. -/
  | slash
  /-- Behind a backslash in code. -/
  | escape
  | quoted (quote : Char)
  /-- Behind a backslash in a quoted string. -/
  | quotedEscape (quote : Char)
  | comment
  /-- In a comment, right behind a star that may close it. -/
  | commentStar
deriving DecidableEq, Repr

structure Reading where
  depth : Nat := 0
  mode : Reading.Mode := .code
deriving DecidableEq, Repr

namespace Reading

def stepCode (depth : Nat) (c : Char) : Reading :=
  if c = '\\' then ⟨depth, .escape⟩
  else if c = '"' ∨ c = '\'' then ⟨depth, .quoted c⟩
  else if c = '/' then ⟨depth, .slash⟩
  else if c = '(' then ⟨depth + 1, .code⟩
  else if c = ')' then ⟨depth - 1, .code⟩
  else ⟨depth, .code⟩

def step : Reading → Char → Reading
  | ⟨d, .code⟩, c => stepCode d c
  | ⟨d, .slash⟩, c => if c = '*' then ⟨d, .comment⟩ else stepCode d c
  | ⟨d, .escape⟩, _ => ⟨d, .code⟩
  | ⟨d, .quoted q⟩, c =>
    if c = '\\' then ⟨d, .quotedEscape q⟩ else if c = q then ⟨d, .code⟩ else ⟨d, .quoted q⟩
  | ⟨d, .quotedEscape q⟩, _ => ⟨d, .quoted q⟩
  | ⟨d, .comment⟩, c => if c = '*' then ⟨d, .commentStar⟩ else ⟨d, .comment⟩
  | ⟨d, .commentStar⟩, c =>
    if c = '/' then ⟨d, .code⟩ else if c = '*' then ⟨d, .commentStar⟩ else ⟨d, .comment⟩

def inCode (r : Reading) : Bool := r.mode == .code || r.mode == .slash

def stops (r : Reading) (c : Char) : Bool :=
  r.inCode && r.depth == 0 && (c == ';' || c == '{' || c == '}')

def split (r : Reading) : Text → Text × Text
  | [] => ([], [])
  | c :: rest =>
    if r.stops c then ([], c :: rest)
    else (c :: (split (r.step c) rest).1, (split (r.step c) rest).2)

theorem split_append (r : Reading) (s : Text) : (r.split s).1 ++ (r.split s).2 = s := by
  induction s generalizing r with
  | nil => rfl
  | cons c s ih =>
    rw [split]
    split
    · rfl
    · simp [ih]

/-- The byte offset of the last quote or slash that began a string or might
begin a comment. `position` counts the bytes read, `mark` is the answer so far. -/
def openedAt (r : Reading) (position mark : Nat) : Text → Nat
  | [] => mark
  | c :: rest =>
    let next := r.step c
    let mark' := match next.mode with
      | .slash => position
      | .quoted _ => if r.inCode then position else mark
      | _ => mark
    openedAt next (position + c.utf8Size) mark' rest

end Reading

structure StatementCut where
  body : Text
  terminator : Terminator
  /-- From the terminator on. -/
  rest : Text
deriving DecidableEq, Repr

/-- The fault of a text that ends inside a string or a comment, at the opening
of that string or comment. -/
def openFault? (body : Text) : Option Fault :=
  match (body.foldl Reading.step {}).mode with
  | .quoted _ => some (.unclosedString (Reading.openedAt {} 0 0 body))
  | .quotedEscape _ => some (.unclosedString (Reading.openedAt {} 0 0 body))
  | .comment => some (.unclosedComment (Reading.openedAt {} 0 0 body))
  | .commentStar => some (.unclosedComment (Reading.openedAt {} 0 0 body))
  | _ => none

def cutStatement (s : Text) : Except Fault StatementCut :=
  match Reading.split {} s with
  | (body, c :: rest) => .ok ⟨body, .ofChar c, c :: rest⟩
  | (body, []) =>
    match openFault? body with
    | some fault => .error fault
    | none => .ok ⟨body, .endOfText, []⟩

theorem cutStatement_append {s : Text} {cut : StatementCut} (h : cutStatement s = .ok cut) :
    cut.body ++ cut.rest = s := by
  have e := Reading.split_append {} s
  rw [cutStatement] at h
  split at h
  · next hr => cases h; simpa [hr] using e
  · next hr =>
    split at h <;> cases h
    simpa [hr] using e

/-- What follows the body depends on how the statement ended. -/
theorem cutStatement_rest {s : Text} {cut : StatementCut} (h : cutStatement s = .ok cut) :
    match cut.terminator with
    | .semicolon => cut.rest.head? = some ';'
    | .openBrace => cut.rest.head? = some '{'
    | .closeBrace => True
    | .endOfText => cut.rest = [] := by
  rw [cutStatement] at h
  split at h
  · next c _ hr =>
    cases h
    simp only [Terminator.ofChar]
    by_cases h₁ : c = ';'
    · simp [h₁]
    · by_cases h₂ : c = '{'
      · simp [h₂]
      · simp [h₁, h₂]
  · split at h <;> cases h
    rfl

/-- The byte offset at which the statement that begins at byte `start` of the
source ends, and how. -/
def statementEnd (source : Text) (start : Nat) : Except Fault (Nat × Terminator) :=
  let s := source.dropBytes start
  let skipped := source.byteLength - s.byteLength
  match cutStatement s with
  | .ok cut => .ok (skipped + cut.body.byteLength, cut.terminator)
  | .error fault => .error (fault.shift skipped)

end StyleValues
