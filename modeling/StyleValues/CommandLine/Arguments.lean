import StyleValues.CommandLine.Options

/-!
# Arguments

The arguments of an invocation are read from left to right. One of them names
the sheet, the others are options; what follows a lone `--` is no option. An
option that takes a value has it attached or in the next argument.
-/

set_option autoImplicit false

namespace StyleValues

inductive OptionName where
  | output
  | messages
  | log
  | stem
  | plugin
  | scopedName
  | atRule
deriving DecidableEq, Repr

def OptionName.all : List OptionName := [output, messages, log, stem, plugin, scopedName, atRule]

def OptionName.text : OptionName → Text
  | .output => "output".toList
  | .messages => "messages".toList
  | .log => "log".toList
  | .stem => "prefix".toList
  | .plugin => "plugin-name".toList
  | .scopedName => "scoped".toList
  | .atRule => "at-rule".toList

inductive Argument where
  /-- Ends the options. -/
  | dashes
  | keepSelectors
  /-- An option, with its value if that is attached. -/
  | valued (name : OptionName) (value : Option Text)
  | plain (t : Text)
  | unknown
deriving DecidableEq, Repr

def longOption (name : Text) (value : Option Text) : Argument :=
  if name = "no-selectors".toList then if value.isNone then .keepSelectors else .unknown
  else
    match OptionName.all.find? fun known => known.text == name with
    | some known => .valued known value
    | none => .unknown

def Argument.ofText : Text → Argument
  | ['-', '-'] => .dashes
  | '-' :: '-' :: rest =>
    match Text.breakAt? ['='] rest with
    | some (name, value) => longOption name (some value)
    | none => longOption rest none
  | ['-', 'o'] => .valued .output none
  | '-' :: 'o' :: '=' :: value => .valued .output (some value)
  | '-' :: 'o' :: value => .valued .output (some value)
  | ['-'] => .plain ['-']
  | '-' :: _ => .unknown
  | t => .plain t

structure Draft where
  input : Option Text := none
  options : Options := {}
deriving DecidableEq, Repr

def once? (old : Option Text) (t : Text) : Option (Option Text) :=
  if old.isNone then some (some t) else none

def oncePath? (old : Option Text) (path : Text) : Option (Option Text) :=
  if path.isEmpty then none else once? old path

namespace Draft

def withInput? (d : Draft) (path : Text) : Option Draft :=
  (oncePath? d.input path).map fun input => { d with input }

/-- Gives an option its value. Only scoped names and at-rules may be given more than once. -/
def set? (d : Draft) (name : OptionName) (value : Text) : Option Draft :=
  let o := d.options
  let options? : Option Options := match name with
    | .output => (oncePath? o.output value).map fun output => { o with output }
    | .messages => (oncePath? o.messages value).map fun messages => { o with messages }
    | .log => (oncePath? o.log value).map fun log => { o with log }
    | .stem => (once? o.stem value).map fun stem => { o with stem }
    | .plugin => (once? o.plugin value).map fun plugin => { o with plugin }
    | .scopedName => some { o with scopedNames := o.scopedNames ++ [value] }
    | .atRule => some { o with atRules := o.atRules ++ [value] }
  options?.map fun options => { d with options }

def keepSelectors? (d : Draft) : Option Draft :=
  if d.options.keepsSelectors then none
  else some { d with options := { d.options with keepsSelectors := true } }

/-- Reads arguments. An option may be waiting for its value. -/
def read : Option OptionName → Draft → List Text → Option Draft
  | none, d, [] => some d
  | some _, _, [] => none
  | some name, d, arg :: rest =>
    match Argument.ofText arg with
    | .plain value => (d.set? name value).bind fun d => read none d rest
    | _ => none
  | none, d, arg :: rest =>
    match Argument.ofText arg with
    | .dashes => rest.foldlM withInput? d
    | .keepSelectors => d.keepSelectors?.bind fun d => read none d rest
    | .valued name none => read (some name) d rest
    | .valued name (some value) => (d.set? name value).bind fun d => read none d rest
    | .plain path => (d.withInput? path).bind fun d => read none d rest
    | .unknown => none

end Draft

def Command.ofArguments? (args : List Text) : Option Command :=
  (Draft.read none {} args).bind fun d =>
    d.input.map fun input => { input, options := d.options }

end StyleValues
