import StyleValues.Text.Alphanumeric

/-!
# Replacement of an identifier

An identifier is searched for from left to right, each occurrence beginning
behind the one before. An occurrence is replaced if no name character touches
it in the text as it was, so that a dot or a hash mark in front is no obstacle.
-/

set_option autoImplicit false

namespace StyleValues

/-- Whether a name ends or begins next to that character, or next to the end of the text. -/
def isNameBoundary (c : Option Char) : Bool := !c.any isNameChar

/-- Replaces in a text behind the character `previous`. The first `skip`
characters belong to an occurrence that is already dealt with. -/
def replaceFrom (identifier replacement : Text) : Nat → Option Char → Text → Text
  | _, _, [] => []
  | skip + 1, _, c :: rest => replaceFrom identifier replacement skip (some c) rest
  | 0, previous, c :: rest =>
    if identifier.isPrefixOf (c :: rest) then
      (if isNameBoundary previous && isNameBoundary ((c :: rest).drop identifier.length).head?
        then replacement else identifier) ++
          replaceFrom identifier replacement (identifier.length - 1) (some c) rest
    else c :: replaceFrom identifier replacement 0 (some c) rest

/-- Replaces an identifier where it stands by itself. The empty identifier stands nowhere. -/
def replaceIdentifier (identifier replacement s : Text) : Text :=
  if identifier.isEmpty then s else replaceFrom identifier replacement 0 none s

abbrev Redirects := List (Text × Text)

def redirect (redirects : Redirects) (s : Text) : Text :=
  redirects.foldl (fun s entry => replaceIdentifier entry.1 entry.2 s) s

theorem redirect_append (r₁ r₂ : Redirects) (s : Text) :
    redirect (r₁ ++ r₂) s = redirect r₂ (redirect r₁ s) := by
  simp [redirect]

end StyleValues
