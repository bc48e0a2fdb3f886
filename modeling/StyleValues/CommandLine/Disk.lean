import StyleValues.Text.Basic

/-!
# Files

A disk holds files at places, and a place is the list of names that lead to it
from the top. Directories have no entry of their own: a directory is what
leads to a file or to the working directory. A path is followed name by name,
and the first name that cannot be followed decides what is reported.
-/

set_option autoImplicit false

namespace StyleValues

/-- What a file holds: a text in UTF-8, or bytes that are none. -/
inductive Content where
  | text (t : Text)
  | bytes
deriving DecidableEq, Repr

inductive DiskFault where
  | notFound
  | isDirectory
  | notDirectory
  | notText
deriving DecidableEq, Repr

def DiskFault.message : DiskFault → Text
  | .notFound => "No such file or directory (os error 2)".toList
  | .isDirectory => "Is a directory (os error 21)".toList
  | .notDirectory => "Not a directory (os error 20)".toList
  | .notText => "stream did not contain valid UTF-8".toList

def Content.text? : Content → Except DiskFault Text
  | .text t => .ok t
  | .bytes => .error .notText

/-- A text behind the content. Bytes that are no UTF-8 do not become UTF-8 by a
text that follows them. -/
def Content.append (t : Text) : Content → Content
  | .text old => .text (old ++ t)
  | .bytes => .bytes

abbrev Place := List Text

/-- The names in a path. Where two slashes meet, or one ends the path, a name is empty. -/
def pathNames : Text → List Text
  | [] => [[]]
  | c :: rest =>
    if c = '/' then [] :: pathNames rest else (pathNames rest).modifyHead fun name => c :: name

def Place.enter (place : Place) (name : Text) : Place :=
  if name = [] ∨ name = ['.'] then place
  else if name = ['.', '.'] then place.dropLast
  else place ++ [name]

structure Disk where
  /-- The working directory. -/
  here : Place := []
  files : List (Place × Content) := []
deriving DecidableEq, Repr

namespace Disk

def content? (d : Disk) (place : Place) : Option Content := d.files.lookup place

def isDirectory (d : Disk) (place : Place) : Bool :=
  place.isPrefixOf d.here || d.files.any fun file => place.isPrefixOf file.1 && place != file.1

/-- Follows names from a place. Only a directory leads on. -/
def follow (d : Disk) : Place → List Text → Except DiskFault Place
  | place, [] => .ok place
  | place, name :: rest =>
    if d.isDirectory place then d.follow (place.enter name) rest
    else if (d.content? place).isSome then .error .notDirectory
    else .error .notFound

/-- The place of a path. A path that begins with a slash starts at the top. -/
def locate (d : Disk) (path : Text) : Except DiskFault Place :=
  d.follow (if path.head? = some '/' then [] else d.here) (pathNames path)

def readAt (d : Disk) (place : Place) : Except DiskFault Text :=
  if d.isDirectory place then .error .isDirectory
  else match d.content? place with
    | some content => content.text?
    | none => .error .notFound

def read (d : Disk) (path : Text) : Except DiskFault Text := (d.locate path).bind d.readAt

/-- The place of the file that is written under a path. It need not exist, but its
directory must. A slash at the end asks for a directory. -/
def target (d : Disk) (path : Text) : Except DiskFault Place :=
  (d.locate (path.reverse.dropWhile (· == '/')).reverse).bind fun place =>
    if path.getLast? = some '/' ∨ d.isDirectory place then .error .isDirectory else .ok place

def put (d : Disk) (place : Place) (content : Content) : Disk :=
  { d with files := (place, content) :: d.files.filter fun file => file.1 != place }

theorem content?_put_self (d : Disk) (place : Place) (content : Content) :
    (d.put place content).content? place = some content := by
  simp [put, content?]

theorem content?_put_of_ne (d : Disk) {place other : Place} (content : Content)
    (h : other ≠ place) : (d.put place content).content? other = d.content? other := by
  have hb : (other == place) = false := by simpa using h
  simp only [put, content?, List.lookup_cons, hb]
  induction d.files with
  | nil => rfl
  | cons file rest ih =>
    obtain ⟨p, c⟩ := file
    by_cases e : p = place
    · simp [List.lookup_cons, e, hb, ih]
    · have he : (p != place) = true := by simpa using e
      simp [he, List.lookup_cons, ih]

def write (d : Disk) (path t : Text) : Except DiskFault Disk :=
  (d.target path).map fun place => d.put place (.text t)

def append (d : Disk) (path t : Text) : Except DiskFault Disk :=
  (d.target path).map fun place =>
    d.put place (((d.content? place).getD (.text [])).append t)

end Disk

end StyleValues
