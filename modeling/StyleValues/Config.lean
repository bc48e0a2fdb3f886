import StyleValues.Text.Basic

/-!
# Configuration

What a run writes into the sheet, and which parts of the sheet it substitutes in.
-/

set_option autoImplicit false

namespace StyleValues

structure Targets where
  declarations : Bool := true
  selectors : Bool := true
  atRuleParams : Bool := true
deriving DecidableEq, Repr

structure Config where
  /-- What every placeholder begins with. -/
  stem : Text := "__value__".toList
  /-- The name that every value message carries. -/
  plugin : Text := "icss-values".toList
  targets : Targets := {}
  /-- The at-rules whose parameters are a target, in any letter case. -/
  atRules : List Text := ["media".toList, "custom-media".toList]
deriving DecidableEq, Repr

def Config.targetsAtRule (c : Config) (name : Text) : Bool :=
  c.targets.atRuleParams && c.atRules.any fun own => own.equalsIgnoringCase name

end StyleValues
