import StyleValues.Text.Blank

/-!
# Selectors of the exchange blocks

A rule with the selector `:import(path)` names what a sheet takes from another
one, and a rule with the selector `:export` names what it offers.
-/

set_option autoImplicit false

namespace StyleValues

open Text

def exportSelector : Text := ":export".toList

def isExportSelector (selector : Text) : Bool := trim selector == exportSelector

def behind? (start s : Text) : Option Text :=
  if start.isPrefixOf s then some (s.drop start.length) else none

def inFrontOf? (c : Char) (s : Text) : Option Text :=
  if s.getLast? = some c then some s.dropLast else none

def unquoted? (quote : Char) (s : Text) : Option Text :=
  (behind? [quote] s).bind (inFrontOf? quote)

/-- A path without white space around it and without one pair of quotes. -/
def normalizePath (path : Text) : Text :=
  ((unquoted? '\'' (trim path)).or (unquoted? '"' (trim path))).getD (trim path)

def importPath? (selector : Text) : Option Text :=
  ((behind? ":import(".toList (trim selector)).bind (inFrontOf? ')')).map normalizePath

/-- The selector of an import block. The path is put in double quotes only if
it has an apostrophe. -/
def importSelector (path : Text) : Text :=
  let quote := if path.contains '\'' then '"' else '\''
  ":import(".toList ++ quote :: (path ++ [quote, ')'])

def isExchangeSelector (selector : Text) : Bool :=
  isExportSelector selector || (importPath? selector).isSome

end StyleValues
