import StyleValues.Definition.Basic
import StyleValues.Definition.Token

/-!
# The grammar of definitions

A text with a last word `from` at its top level is a list of names followed by
a quoted path. Every other text is a name and its value, with a colon or white
space between them. The values are taken as they stand.
-/

set_option autoImplicit false

namespace StyleValues

open Text

def reservedWords : List Text := ["as".toList, "from".toList]

def checkName (name : Text) : Except Rejection Unit :=
  if reservedWords.contains name then .error (.reservedName name) else .ok ()

/-- The text without its comments. A comment without an end takes all the rest with it. -/
def withoutComments (s : Text) : Text :=
  match h : breakAt? ['/', '*'] s with
  | none => s
  | some (before, inside) =>
    match h' : breakAt? ['*', '/'] inside with
    | none => before
    | some (_, rest) =>
      have : rest.length < s.length := by
        rw [← breakAt?_append h, ← breakAt?_append h']
        simp
        omega
      before ++ withoutComments rest
termination_by s.length

/-- The value that follows a name: behind a colon, or behind white space alone. -/
def valueAfter (name : Text) : Text → Except Rejection Text
  | [] => .ok []
  | c :: rest =>
    if c = ':' then .ok (trim rest)
    else if c = ',' then .error (.unexpectedSeparator name)
    else .ok (c :: rest)

def readValue (s : Text) : Except Rejection Definition :=
  let text := trim s
  if (text.head?.any isQuote) then .error .quotedName
  else
    let inName := fun c => !(isBlank c || c == ':' || c == ',')
    let name := text.takeWhile inName
    if name.isEmpty then .error .missingName
    else
      match checkName name with
      | .error e => .error e
      | .ok () =>
        match valueAfter name (trimStart (text.dropWhile inName)) with
        | .error e => .error e
        | .ok value =>
          if (trim (withoutComments value)).isEmpty then .error (.missingValue name)
          else .ok (.value name value)

/-- Reads one entry of an import list, `name` or `name as name`. -/
def readImportedName (chunk : List Token) : Except Rejection ImportedName :=
  let parts := chunk.filter fun t => !t.isSpace
  if parts.any Token.isQuoted then .error .quotedName
  else
    let entry : Option ImportedName := match parts with
      | [.word source] => some ⟨source, source⟩
      | [.word source, link, .word name] =>
        if link.isWord "as".toList then some ⟨source, name⟩ else none
      | _ => none
    match entry with
    | none => .error .malformedImports
    | some entry =>
      match checkName entry.source with
      | .error e => .error e
      | .ok () =>
        match checkName entry.name with
        | .error e => .error e
        | .ok () => .ok entry

def readImportedNames : List (List Token) → Except Rejection (List ImportedName)
  | [] => .ok []
  | chunk :: rest =>
    match readImportedName chunk with
    | .error e => .error e
    | .ok entry =>
      match readImportedNames rest with
      | .error e => .error e
      | .ok entries => .ok (entry :: entries)

def readPath (tokens : List Token) : Except Rejection Text :=
  match tokens.filter fun t => !t.isSpace with
  | [] => .error .missingPath
  | [.quoted _ value] => .ok value
  | .quoted _ _ :: _ => .error .trailingTokens
  | _ => .error .unquotedPath

def splitAtCommas : List Token → List (List Token)
  | [] => [[]]
  | t :: rest =>
    if t.isComma then [] :: splitAtCommas rest
    else
      match splitAtCommas rest with
      | [] => [[t]]
      | chunk :: chunks => (t :: chunk) :: chunks

/-- The names in front of `from`; a pair of parentheses around all of them is taken off. -/
def importList (tokens : List Token) : List Token :=
  match trimSpaces tokens with
  | [.call [] arguments] => trimSpaces arguments
  | list => list

def readImports (names path : List Token) : Except Rejection Definition :=
  match readPath path with
  | .error e => .error e
  | .ok path =>
    let list := importList names
    if list.isEmpty then .error .missingName
    else
      match readImportedNames (splitAtCommas list) with
      | .error e => .error e
      | .ok entries => .ok (.imports path entries)

def splitAtLast? {α : Type} (p : α → Bool) : List α → Option (List α × List α)
  | [] => none
  | a :: rest =>
    match splitAtLast? p rest with
    | some (left, right) => some (a :: left, right)
    | none => if p a then some ([], rest) else none

def Definition.read (s : Text) : Except Rejection Definition :=
  if hasSubtext "@value".toList s then .error .mergedStatements
  else
    match (tokenize? s).bind (splitAtLast? (Token.isWord "from".toList)) with
    | some (names, path) => readImports names path
    | none => readValue s

end StyleValues
