import StyleValues.Text.Basic

/-!
# Definitions

A `@value` statement gives one name a value, or brings names in from another
style sheet. A statement that does neither is rejected for a reason.
-/

set_option autoImplicit false

namespace StyleValues

/-- A name of another style sheet, and the name it goes by here. -/
structure ImportedName where
  source : Text
  name : Text
deriving DecidableEq, Repr

inductive Definition where
  | value (name value : Text)
  | imports (path : Text) (names : List ImportedName)
deriving DecidableEq, Repr

inductive Rejection where
  /-- The text runs on into another statement, whose semicolon is missing before it. -/
  | mergedStatements
  | missingName
  | missingValue (name : Text)
  | unexpectedSeparator (name : Text)
  | reservedName (name : Text)
  | quotedName
  | missingPath
  | unquotedPath
  | trailingTokens
  | malformedImports
deriving DecidableEq, Repr

def Rejection.message : Rejection → Text
  | .mergedStatements => "prelude contains another @value statement".toList
  | .missingName => "missing value name".toList
  | .missingValue name => "missing value for \"".toList ++ name ++ "\"".toList
  | .unexpectedSeparator name => "unexpected separator after \"".toList ++ name ++ "\"".toList
  | .reservedName name => "\"".toList ++ name ++ "\" is a reserved word".toList
  | .quotedName => "quoted string used where a name was expected".toList
  | .missingPath => "missing import path".toList
  | .unquotedPath => "import path must be a quoted string".toList
  | .trailingTokens => "unexpected tokens after import path".toList
  | .malformedImports => "malformed import list".toList

end StyleValues
