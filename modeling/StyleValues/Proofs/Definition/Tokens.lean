import StyleValues.Definition.Token
import StyleValues.Proofs.Definition.Lexing

/-!
# Which tokens a text has

Nesting keeps every lexeme: the tokens of a text, taken apart again, are its
lexemes. So a text has at most one list of tokens, and it has one exactly if
the text is theirs and none of their lexemes goes on in the next
(`tokenize?_eq_some_iff`).
-/

set_option autoImplicit false

namespace StyleValues

namespace Token

mutual

def lexemes : Token → List Lexeme
  | .word text => [.word text]
  | .space text => [.space text]
  | .divider mark => [.divider mark]
  | .quoted quote value => [.quoted quote value]
  | .call name arguments => .opening name :: (lexemesOf arguments ++ [.closing])

def lexemesOf : List Token → List Lexeme
  | [] => []
  | t :: rest => t.lexemes ++ lexemesOf rest

end

@[simp] theorem lexemesOf_nil : lexemesOf [] = [] := by rw [lexemesOf]

@[simp] theorem lexemesOf_cons (t : Token) (ts : List Token) :
    lexemesOf (t :: ts) = t.lexemes ++ lexemesOf ts := by rw [lexemesOf]

@[simp] theorem lexemesOf_append (ts us : List Token) :
    lexemesOf (ts ++ us) = lexemesOf ts ++ lexemesOf us := by
  induction ts with
  | nil => rw [List.nil_append, lexemesOf_nil, List.nil_append]
  | cons t ts ih => rw [List.cons_append, lexemesOf_cons, lexemesOf_cons, ih, List.append_assoc]

mutual

theorem renderLexemes_lexemes : ∀ t : Token, renderLexemes t.lexemes = t.render
  | .word text => by simp [lexemes, Lexeme.render, render]
  | .space text => by simp [lexemes, Lexeme.render, render]
  | .divider mark => by simp [lexemes, Lexeme.render, render]
  | .quoted quote value => by simp [lexemes, Lexeme.render, render]
  | .call name arguments => by
    simp [lexemes, Lexeme.render, render, renderLexemes_lexemesOf arguments]

theorem renderLexemes_lexemesOf : ∀ ts : List Token, renderLexemes (lexemesOf ts) = renderAll ts
  | [] => by simp [renderAll]
  | t :: ts => by
    simp [renderAll, renderLexemes_lexemes t, renderLexemes_lexemesOf ts]

end

end Token

open Token

/-! ### Nesting -/

mutual

theorem nestLexemes?_lexemes (calls : List OpenCall) (earlier : List Token) (ls : List Lexeme) :
    ∀ t : Token, nestLexemes? calls earlier (t.lexemes ++ ls) =
      nestLexemes? calls (earlier ++ [t]) ls
  | .word text => by rw [lexemes, List.singleton_append, nestLexemes?]
  | .space text => by rw [lexemes, List.singleton_append, nestLexemes?]
  | .divider mark => by rw [lexemes, List.singleton_append, nestLexemes?]
  | .quoted quote value => by rw [lexemes, List.singleton_append, nestLexemes?]
  | .call name arguments => by
    rw [lexemes, List.cons_append, nestLexemes?, List.append_assoc,
      nestLexemes?_lexemesOf _ [] _ arguments, List.nil_append, List.singleton_append,
      nestLexemes?]

theorem nestLexemes?_lexemesOf (calls : List OpenCall) (earlier : List Token) (ls : List Lexeme) :
    ∀ ts : List Token, nestLexemes? calls earlier (lexemesOf ts ++ ls) =
      nestLexemes? calls (earlier ++ ts) ls
  | [] => by rw [lexemesOf_nil, List.nil_append, List.append_nil]
  | t :: ts => by
    rw [lexemesOf_cons, List.append_assoc, nestLexemes?_lexemes calls earlier _ t,
      nestLexemes?_lexemesOf calls _ ls ts, List.append_assoc, List.singleton_append]

end

def openLexemes : List OpenCall → List Lexeme
  | [] => []
  | ⟨name, earlier⟩ :: calls => openLexemes calls ++ lexemesOf earlier ++ [.opening name]

/-- Nesting keeps every lexeme: those of the open calls, of the tokens read so far, and those to
be read are the lexemes of the result. -/
theorem lexemesOf_of_nestLexemes? {calls : List OpenCall} {tokens ts : List Token}
    {ls : List Lexeme} (h : nestLexemes? calls tokens ls = some ts) :
    lexemesOf ts = openLexemes calls ++ lexemesOf tokens ++ ls := by
  induction calls, tokens, ls using nestLexemes?.induct with
  | case1 tokens => rw [nestLexemes?] at h; cases h; simp [openLexemes]
  | case2 => rw [nestLexemes?] at h; cases h
  | case3 calls tokens text rest ih => rw [nestLexemes?] at h; simp [ih h, lexemes]
  | case4 calls tokens text rest ih => rw [nestLexemes?] at h; simp [ih h, lexemes]
  | case5 calls tokens mark rest ih => rw [nestLexemes?] at h; simp [ih h, lexemes]
  | case6 calls tokens quote value rest ih => rw [nestLexemes?] at h; simp [ih h, lexemes]
  | case7 calls tokens name rest ih => rw [nestLexemes?] at h; simp [ih h, openLexemes]
  | case8 => rw [nestLexemes?] at h; cases h
  | case9 opened calls tokens rest ih => rw [nestLexemes?] at h; simp [ih h, openLexemes, lexemes]

theorem nestLexemes?_eq_some_iff {ls : List Lexeme} {ts : List Token} :
    nestLexemes? [] [] ls = some ts ↔ lexemesOf ts = ls := by
  constructor
  · exact fun h => lexemesOf_of_nestLexemes? h
  · rintro rfl
    have h := nestLexemes?_lexemesOf [] [] [] ts
    rwa [List.append_nil, List.nil_append, nestLexemes?] at h

/-- A text is read to exactly those tokens that make it up and whose lexemes are canonical. -/
theorem tokenize?_eq_some_iff {s : Text} {ts : List Token} :
    tokenize? s = some ts ↔ renderAll ts = s ∧ Canonical (lexemesOf ts) := by
  rw [tokenize?, Option.bind_eq_some_iff]
  constructor
  · rintro ⟨ls, hl, hn⟩
    cases nestLexemes?_eq_some_iff.mp hn
    rwa [lexemes?_eq_some_iff, renderLexemes_lexemesOf] at hl
  · intro h
    exact ⟨lexemesOf ts, lexemes?_eq_some_iff.mpr (by rwa [renderLexemes_lexemesOf]),
      nestLexemes?_eq_some_iff.mpr rfl⟩

/-! ### The first token -/

theorem tokenize?_eq_nil_iff {s : Text} : tokenize? s = some [] ↔ s = [] := by
  rw [tokenize?_eq_some_iff, lexemesOf_nil, renderAll]
  constructor
  · exact fun h => h.1.symm
  · rintro rfl
    exact ⟨rfl, List.forall_mem_nil _, .nil⟩

/-- A token of one lexeme is the first of a text that goes on behind it with anything but more
of that token. -/
theorem tokenize?_eq_cons_iff {t : Token} {l : Lexeme} (ht : t.lexemes = [l]) {s : Text}
    {ts : List Token} : tokenize? s = some (t :: ts) ↔
      l.Wellformed ∧ ∃ rest, s = l.render ++ rest ∧
        (∀ c, rest.head? = some c → l.absorbs c = false) ∧ tokenize? rest = some ts := by
  have hr : renderAll (t :: ts) = l.render ++ renderAll ts := by
    rw [← renderLexemes_lexemesOf, lexemesOf_cons, ht, List.singleton_append, renderLexemes_cons,
      renderLexemes_lexemesOf]
  simp only [tokenize?_eq_some_iff, lexemesOf_cons, ht, List.singleton_append, Canonical.cons_iff,
    renderLexemes_lexemesOf, hr]
  constructor
  · rintro ⟨rfl, ⟨hw, ha⟩, hc⟩
    exact ⟨hw, _, rfl, ha, rfl, hc⟩
  · rintro ⟨hw, _, rfl, ha, rfl, hc⟩
    exact ⟨rfl, ⟨hw, ha⟩, hc⟩

theorem getLast?_lexemes_call (name : Text) (arguments : List Token) :
    (lexemes (.call name arguments)).getLast? = some .closing := by
  rw [lexemes, ← List.cons_append, List.getLast?_concat]

/-- The lexemes of a call are canonical if those of its arguments are: nothing goes on in front of
its closing parenthesis. -/
theorem canonical_call_iff {name : Text} {arguments : List Token} :
    Canonical (lexemes (.call name arguments)) ↔
      (∀ c ∈ name, isWordChar c) ∧ Canonical (lexemesOf arguments) := by
  rw [lexemes, Canonical.cons_iff, Canonical.append_iff]
  constructor
  · rintro ⟨⟨hn, -⟩, ha, -⟩
    exact ⟨hn, ha⟩
  · rintro ⟨hn, ha⟩
    refine ⟨⟨hn, fun _ _ => rfl⟩, ha, canonical_singleton_iff.mpr trivial, ?_⟩
    rintro l - m hm
    cases hm
    cases l <;> trivial

theorem tokenize?_eq_call_iff {s name : Text} {arguments ts : List Token} :
    tokenize? s = some (.call name arguments :: ts) ↔
      (∀ c ∈ name, isWordChar c) ∧ ∃ inside rest, s = name ++ '(' :: (inside ++ ')' :: rest) ∧
        tokenize? inside = some arguments ∧ tokenize? rest = some ts := by
  have hr : renderAll (.call name arguments :: ts) =
      name ++ '(' :: (renderAll arguments ++ ')' :: renderAll ts) := by simp [renderAll, render]
  have hb : ∀ l ∈ (lexemes (.call name arguments)).getLast?, ∀ m ∈ (lexemesOf ts).head?,
      l.Apart m := by
    rw [getLast?_lexemes_call]
    rintro l hl m -
    cases hl
    trivial
  simp only [tokenize?_eq_some_iff, hr, lexemesOf_cons, Canonical.append_iff, canonical_call_iff]
  constructor
  · rintro ⟨rfl, ⟨hn, ha⟩, ht, -⟩
    exact ⟨hn, _, _, rfl, ⟨rfl, ha⟩, rfl, ht⟩
  · rintro ⟨hn, _, _, rfl, ⟨rfl, ha⟩, rfl, ht⟩
    exact ⟨rfl, ⟨hn, ha⟩, ht, hb⟩

end StyleValues
