import StyleValues.Text.Basic

/-!
# Messages

Messages pass between the stages that work on a sheet. A scoped message says
that a name was given a scoped identifier before; a value message says what
a name stands for in this document.
-/

set_option autoImplicit false

namespace StyleValues

inductive Message where
  | scopedName (name value : Text)
  | boundName (plugin name value : Text)
deriving DecidableEq, Repr

namespace Message

def fields : Message → List (Text × Text)
  | scopedName name value =>
    [("type".toList, "icss-scoped".toList), ("name".toList, name), ("value".toList, value)]
  | boundName plugin name value =>
    [("type".toList, "icss-value".toList), ("plugin".toList, plugin), ("name".toList, name),
      ("value".toList, value)]

/-- The message with those written fields. Further fields say nothing. -/
def ofFields? (field? : Text → Option Text) : Option Message :=
  if field? "type".toList = some "icss-scoped".toList then
    match field? "name".toList, field? "value".toList with
    | some name, some value => some (.scopedName name value)
    | _, _ => none
  else if field? "type".toList = some "icss-value".toList then
    match field? "plugin".toList, field? "name".toList, field? "value".toList with
    | some plugin, some name, some value => some (.boundName plugin name value)
    | _, _, _ => none
  else none

theorem ofFields?_fields (m : Message) : ofFields? (fun key => m.fields.lookup key) = some m := by
  cases m <;> rfl

end Message

end StyleValues
