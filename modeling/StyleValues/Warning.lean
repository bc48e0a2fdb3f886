import StyleValues.Text.Basic

/-!
# Warnings

A statement that is no definition, or a doubtful one, raises a warning and
nothing worse.
-/

set_option autoImplicit false

namespace StyleValues

inductive WarningKind where
  | invalidDefinition (params : Text)
  | alreadyDeclared (name : Text)
  | dotOrHash (name : Text)
deriving DecidableEq, Repr

structure Warning where
  kind : WarningKind
  /-- The text of the statement at fault. -/
  statement : Option Text := none
deriving DecidableEq, Repr

def WarningKind.subject : WarningKind → Text
  | .invalidDefinition params => params
  | .alreadyDeclared name => name
  | .dotOrHash name => name

def Warning.message (w : Warning) : Text :=
  match w.kind with
  | .invalidDefinition params => "Invalid value definition \"".toList ++ params ++ "\"".toList
  | .alreadyDeclared name => "\"".toList ++ name ++ "\" value already declared".toList
  | .dotOrHash name =>
    "Dot and hash symbols are not allowed in value \"".toList ++ name ++ "\"".toList

end StyleValues
