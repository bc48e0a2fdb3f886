import StyleValues.Text.Alphanumeric

/-!
# Substitution of tokens

A token is a maximal run of token characters. Each token is looked up once,
from left to right, and takes the value that is found; values are not looked
at again, and all other text stays.
-/

set_option autoImplicit false

namespace StyleValues

/-- What stands for a token. The empty run is no token. -/
def substituteToken (lookup : Text → Option Text) : Text → Text
  | [] => []
  | c :: rest => (lookup (c :: rest)).getD (c :: rest)

/-- Substitutes in a text that is preceded by the token characters `run`. -/
def substituteFrom (lookup : Text → Option Text) (run : Text) : Text → Text
  | [] => substituteToken lookup run
  | c :: rest =>
    if isTokenChar c then substituteFrom lookup (run ++ [c]) rest
    else substituteToken lookup run ++ c :: substituteFrom lookup [] rest

def substitute (lookup : Text → Option Text) (s : Text) : Text := substituteFrom lookup [] s

def tokensFrom (run : Text) : Text → List Text
  | [] => if run.isEmpty then [] else [run]
  | c :: rest =>
    if isTokenChar c then tokensFrom (run ++ [c]) rest
    else (if run.isEmpty then [] else [run]) ++ tokensFrom [] rest

def tokensIn (s : Text) : List Text := tokensFrom [] s

theorem substituteFrom_none (run s : Text) : substituteFrom (fun _ => none) run s = run ++ s := by
  induction s generalizing run with
  | nil => cases run <;> simp [substituteFrom, substituteToken]
  | cons c s ih =>
    rw [substituteFrom]
    split
    · simp [ih]
    · cases run <;> simp [substituteToken, ih]

/-- Where nothing has a value, nothing changes. -/
theorem substitute_none (s : Text) : substitute (fun _ => none) s = s := substituteFrom_none [] s

end StyleValues
