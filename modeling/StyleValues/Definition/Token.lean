import StyleValues.Definition.Lexeme

/-!
# Tokens of a definition

Lexemes are nested by their parentheses. A word in front of a parenthesis
names a call, a bare pair of parentheses is a call without a name, and
parentheses that do not match leave the text without tokens.
-/

set_option autoImplicit false

namespace StyleValues

inductive Token where
  | word (text : Text)
  | space (text : Text)
  | divider (mark : Char)
  | quoted (quote : Char) (value : Text)
  | call (name : Text) (arguments : List Token)
deriving Repr

namespace Token

mutual

def render : Token → Text
  | .word text => text
  | .space text => text
  | .divider mark => [mark]
  | .quoted quote value => quote :: (value ++ [quote])
  | .call name arguments => name ++ '(' :: (renderAll arguments ++ [')'])

def renderAll : List Token → Text
  | [] => []
  | t :: rest => t.render ++ renderAll rest

end

theorem renderAll_append (s t : List Token) : renderAll (s ++ t) = renderAll s ++ renderAll t := by
  induction s with
  | nil => simp [renderAll]
  | cons a s ih => simp [renderAll, ih]

def isSpace : Token → Bool
  | .space _ => true
  | _ => false

def isQuoted : Token → Bool
  | .quoted _ _ => true
  | _ => false

def isWord (word : Text) : Token → Bool
  | .word text => text == word
  | _ => false

def isComma : Token → Bool
  | .divider mark => mark == ','
  | _ => false

end Token

structure OpenCall where
  name : Text
  earlier : List Token
deriving Repr

/-- Nests lexemes inside the calls that are open, the innermost first. `tokens`
are those read so far in the innermost one. -/
def nestLexemes? : List OpenCall → List Token → List Lexeme → Option (List Token)
  | [], tokens, [] => some tokens
  | _ :: _, _, [] => none
  | calls, tokens, .word text :: rest => nestLexemes? calls (tokens ++ [.word text]) rest
  | calls, tokens, .space text :: rest => nestLexemes? calls (tokens ++ [.space text]) rest
  | calls, tokens, .divider mark :: rest => nestLexemes? calls (tokens ++ [.divider mark]) rest
  | calls, tokens, .quoted quote value :: rest =>
    nestLexemes? calls (tokens ++ [.quoted quote value]) rest
  | calls, tokens, .opening name :: rest => nestLexemes? (⟨name, tokens⟩ :: calls) [] rest
  | [], _, .closing :: _ => none
  | call :: calls, tokens, .closing :: rest =>
    nestLexemes? calls (call.earlier ++ [.call call.name tokens]) rest

def tokenize? (s : Text) : Option (List Token) := (lexemes? s).bind (nestLexemes? [] [])

def trimSpaces (tokens : List Token) : List Token :=
  ((tokens.dropWhile Token.isSpace).reverse.dropWhile Token.isSpace).reverse

end StyleValues
