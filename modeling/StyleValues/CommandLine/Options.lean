import StyleValues.CommandLine.Failure

/-!
# Options of an invocation

What an invocation is asked to do, and what that means for a run.
-/

set_option autoImplicit false

namespace StyleValues

structure Options where
  /-- Where the sheet goes, if not to the standard output. -/
  output : Option Text := none
  /-- Where the messages go. Without it they are not written. -/
  messages : Option Text := none
  /-- The file to which the records are appended. -/
  log : Option Text := none
  stem : Option Text := none
  plugin : Option Text := none
  /-- Bound names are not substituted in selectors. -/
  keepsSelectors : Bool := false
  /-- The scoped names, each as `name=value`. -/
  scopedNames : List Text := []
  atRules : List Text := []
deriving DecidableEq, Repr

structure Command where
  input : Text
  options : Options := {}
deriving DecidableEq, Repr

/-- Reads `name=value`. Neither side is empty, and a value may hold further equals signs. -/
def readScoped (argument : Text) : Except Failure Message :=
  match Text.breakAt? ['='] argument with
  | some (name, value) =>
    if name.isEmpty || value.isEmpty then .error (.scopedArgument argument)
    else .ok (.scopedName name value)
  | none => .error (.scopedArgument argument)

namespace Options

/-- The configuration that the options ask for. At-rules that are named replace the usual ones. -/
def config (o : Options) : Config :=
  let usual : Config := {}
  { stem := o.stem.getD usual.stem
    plugin := o.plugin.getD usual.plugin
    targets := { usual.targets with selectors := usual.targets.selectors && !o.keepsSelectors }
    atRules := if o.atRules.isEmpty then usual.atRules else o.atRules }

def scopedMessages (o : Options) : Except Failure (List Message) := o.scopedNames.mapM readScoped

end Options

end StyleValues
