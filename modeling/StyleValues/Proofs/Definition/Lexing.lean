import Mathlib.Data.List.Chain
import StyleValues.Definition.Lexeme
import StyleValues.Proofs.Text.Cutting

/-!
# Which lexemes a text has

A text has at most one list of lexemes: those that make up the text, each of
its own form, and none of which could have been joined to the one behind it.
Every such list is found (`lexemes?_eq_some_iff`).
-/

set_option autoImplicit false

namespace StyleValues

/-- What can stand between two quotes: a backslash takes the next character with it, and any other
character is not that quote. -/
inductive QuotedBody (quote : Char) : Text → Prop
  | nil : QuotedBody quote []
  | char {c : Char} {rest : Text} :
    c ≠ quote → c ≠ '\\' → QuotedBody quote rest → QuotedBody quote (c :: rest)
  | escape (c : Char) {rest : Text} : QuotedBody quote rest → QuotedBody quote ('\\' :: c :: rest)

namespace Lexeme

def Wellformed : Lexeme → Prop
  | .word text => text ≠ [] ∧ ∀ c ∈ text, isWordChar c
  | .space text => text ≠ [] ∧ ∀ c ∈ text, isSpaceChar c
  | .divider mark => isDivider mark
  | .quoted quote value => isQuote quote ∧ QuotedBody quote value
  | .opening name => ∀ c ∈ name, isWordChar c
  | .closing => True

def Apart : Lexeme → Lexeme → Prop
  | .space _, .space _ => False
  | .word _, .word _ => False
  | .word _, .opening _ => False
  | _, _ => True

def absorbs : Lexeme → Char → Bool
  | .space _, c => isSpaceChar c
  | .word _, c => isWordChar c || c == '('
  | _, _ => false

end Lexeme

structure Canonical (lexemes : List Lexeme) : Prop where
  wellformed : ∀ l ∈ lexemes, l.Wellformed
  apart : lexemes.IsChain Lexeme.Apart

def renderLexemes (lexemes : List Lexeme) : Text := lexemes.flatMap Lexeme.render

/-! ### Characters -/

section
variable {c : Char}

theorem isSpaceChar_cases (h : isSpaceChar c) : c = ' ' ∨ c = '\t' ∨ c = '\r' ∨ c = '\n' := by
  simpa [isSpaceChar, or_assoc] using h

theorem isDivider_cases (h : isDivider c) : c = ',' ∨ c = ':' ∨ c = '/' := by
  simpa [isDivider, or_assoc] using h

theorem isQuote_cases (h : isQuote c) : c = '"' ∨ c = '\'' := by
  simpa [isQuote] using h

theorem isBlank_of_isSpaceChar (h : isSpaceChar c) : isBlank c := by
  rcases isSpaceChar_cases h with rfl | rfl | rfl | rfl <;> rfl

theorem kinds_of_isWordChar (h : isWordChar c) :
    isSpaceChar c = false ∧ isDivider c = false ∧ isQuote c = false ∧ c ≠ '(' ∧ c ≠ ')' := by
  simp only [isWordChar, Bool.and_eq_true, Bool.not_eq_true', bne_iff_ne] at h
  obtain ⟨⟨⟨⟨hb, hd⟩, hq⟩, ho⟩, hc⟩ := h
  refine ⟨?_, hd, hq, ho, hc⟩
  rw [Bool.eq_false_iff]
  intro hs
  rw [isBlank_of_isSpaceChar hs] at hb
  cases hb

end

/-! ### One lexeme -/

theorem quotedBody_of_takeQuoted? {quote : Char} {escaped : Bool} {s value rest : Text}
    (h : takeQuoted? quote escaped s = some (value, rest)) :
    if escaped then ∃ c tail, value = c :: tail ∧ QuotedBody quote tail
    else QuotedBody quote value := by
  induction s generalizing escaped value with
  | nil => cases escaped <;> simp [takeQuoted?] at h
  | cons c s ih =>
    cases escaped with
    | true =>
      rw [takeQuoted?] at h
      obtain ⟨⟨tail, rest'⟩, ht, he⟩ := Option.map_eq_some_iff.mp h
      cases he
      exact ⟨c, tail, rfl, ih ht⟩
    | false =>
      rw [takeQuoted?] at h
      split at h
      · cases h
        exact .nil
      · next hc =>
        obtain ⟨⟨tail, rest'⟩, ht, he⟩ := Option.map_eq_some_iff.mp h
        cases he
        have hi := ih ht
        by_cases hb : c = '\\'
        · subst hb
          obtain ⟨d, tail, rfl, hq⟩ := hi
          exact .escape d hq
        · rw [beq_eq_false_iff_ne.mpr hb] at hi
          exact .char hc hb hi

theorem takeQuoted?_of_quotedBody {quote : Char} (hq : quote ≠ '\\') {value : Text}
    (h : QuotedBody quote value) (rest : Text) :
    takeQuoted? quote false (value ++ quote :: rest) = some (value, rest) := by
  induction h with
  | nil => rw [List.nil_append, takeQuoted?, if_pos rfl]
  | @char c tail hc hb _ ih =>
    rw [List.cons_append, takeQuoted?, if_neg hc, beq_eq_false_iff_ne.mpr hb, ih]
    rfl
  | escape c _ ih =>
    rw [List.cons_append, List.cons_append, takeQuoted?, if_neg hq.symm, beq_self_eq_true,
      takeQuoted?, ih]
    rfl

theorem nextLexeme?_word {word rest : Text} (hw : word ≠ []) (hc : ∀ c ∈ word, isWordChar c)
    (hr : ∀ c, rest.head? = some c → isWordChar c = false) :
    nextLexeme? (word ++ rest) = some (afterWord word rest) := by
  obtain ⟨c, tail, rfl⟩ := List.exists_cons_of_ne_nil hw
  obtain ⟨hc, ht⟩ := List.forall_mem_cons.mp hc
  obtain ⟨hs, hd, hq, ho, hcl⟩ := kinds_of_isWordChar hc
  obtain ⟨h1, h2⟩ := takeWhile_append_of_stop ht hr
  rw [List.cons_append, nextLexeme?, h1, h2]
  simp [hs, hd, hq, ho, hcl, hc]

/-- A lexeme is read where it stands if it does not go on in what follows it. -/
theorem nextLexeme?_of_wellformed {lexeme : Lexeme} (h : lexeme.Wellformed) {rest : Text}
    (hr : ∀ c, rest.head? = some c → lexeme.absorbs c = false) :
    nextLexeme? (lexeme.render ++ rest) = some (lexeme, rest) := by
  cases lexeme with
  | word text =>
    have hw : ∀ c, rest.head? = some c → isWordChar c = false ∧ c ≠ '(' := by
      intro c hc
      simpa [Lexeme.absorbs] using hr c hc
    rw [Lexeme.render, nextLexeme?_word h.1 h.2 fun c hc => (hw c hc).1]
    cases rest with
    | nil => rfl
    | cons c rest => rw [afterWord, if_neg (hw c rfl).2]
  | space text =>
    obtain ⟨c, tail, rfl⟩ := List.exists_cons_of_ne_nil h.1
    obtain ⟨hc, ht⟩ := List.forall_mem_cons.mp h.2
    obtain ⟨h1, h2⟩ := takeWhile_append_of_stop ht hr
    rw [Lexeme.render, List.cons_append, nextLexeme?, if_pos hc, h1, h2]
  | divider mark =>
    rcases isDivider_cases h with rfl | rfl | rfl <;> rfl
  | quoted quote value =>
    obtain ⟨hq, hv⟩ := h
    have hread : ∀ q, q = '"' ∨ q = '\'' → QuotedBody q value →
        nextLexeme? (q :: (value ++ q :: rest)) = some (.quoted q value, rest) := by
      intro q hq hv
      have ht := takeQuoted?_of_quotedBody (by rcases hq with rfl | rfl <;> decide) hv rest
      rw [nextLexeme?, ht]
      rcases hq with rfl | rfl <;> rfl
    rw [Lexeme.render, List.cons_append, List.append_assoc]
    exact hread quote (isQuote_cases hq) hv
  | opening name =>
    cases name with
    | nil => rfl
    | cons c name =>
      rw [Lexeme.render, List.append_assoc, nextLexeme?_word (List.cons_ne_nil c name) h]
      · rfl
      · intro d hd
        cases hd
        rfl
  | closing => rfl

/-- A lexeme that is read has the form of its kind and ends where it cannot go on. -/
theorem wellformed_of_nextLexeme? {s rest : Text} {lexeme : Lexeme}
    (h : nextLexeme? s = some (lexeme, rest)) :
    lexeme.Wellformed ∧ ∀ c, rest.head? = some c → lexeme.absorbs c = false := by
  have hall : ∀ (p : Char → Bool) (c : Char) (tail : Text), p c →
      ∀ d ∈ c :: tail.takeWhile p, p d := by
    intro p c tail hc
    exact List.forall_mem_cons.mpr ⟨hc, fun d hd => List.mem_takeWhile_imp hd⟩
  have hstop : ∀ (p : Char → Bool) (tail : Text) (c : Char), (tail.dropWhile p).head? = some c →
      p c = false := fun p tail c hc => stop_of_dropWhile hc
  cases s with
  | nil => cases h
  | cons c s =>
    rw [nextLexeme?] at h
    split at h
    · next hc =>
      cases h
      exact ⟨⟨List.cons_ne_nil _ _, hall _ c s hc⟩, hstop _ s⟩
    · split at h
      · next hc => cases h; exact ⟨hc, fun _ _ => rfl⟩
      · split at h
        · next hc =>
          obtain ⟨⟨value, rest'⟩, ht, he⟩ := Option.map_eq_some_iff.mp h
          cases he
          exact ⟨⟨hc, quotedBody_of_takeQuoted? ht⟩, fun _ _ => rfl⟩
        · split at h
          · cases h; exact ⟨List.forall_mem_nil _, fun _ _ => rfl⟩
          · split at h
            · cases h; exact ⟨trivial, fun _ _ => rfl⟩
            · split at h
              · next hc =>
                have hw := hall _ c s hc
                have hd := hstop isWordChar s
                generalize s.dropWhile isWordChar = tail at h hd
                cases tail with
                | nil => cases h; exact ⟨⟨List.cons_ne_nil _ _, hw⟩, fun _ hn => by cases hn⟩
                | cons d tail =>
                  rw [afterWord] at h
                  split at h
                  · cases h; exact ⟨hw, fun _ _ => rfl⟩
                  · next ho =>
                    cases h
                    refine ⟨⟨List.cons_ne_nil _ _, hw⟩, fun e he => ?_⟩
                    cases he
                    simp [Lexeme.absorbs, hd d rfl, ho]
              · cases h

/-! ### All lexemes -/

/-- Two lexemes next to each other are apart exactly if the first does not go on with the
first character of the second. -/
theorem apart_iff {a b : Lexeme} (hb : b.Wellformed) {c : Char} {tail : Text}
    (hc : b.render = c :: tail) : a.Apart b ↔ a.absorbs c = false := by
  have hhead : ∀ {text : Text}, text = c :: tail →
      ∀ {p : Char → Bool}, (∀ d ∈ text, p d) → p c := by
    rintro _ rfl p h
    exact h c List.mem_cons_self
  cases b with
  | word text =>
    have hw := hhead hc hb.2
    obtain ⟨hs, -⟩ := kinds_of_isWordChar hw
    cases a <;> simp [Lexeme.Apart, Lexeme.absorbs, hw, hs]
  | space text =>
    have hs := hhead hc hb.2
    rcases isSpaceChar_cases hs with rfl | rfl | rfl | rfl <;>
      cases a <;> simp [Lexeme.Apart, Lexeme.absorbs] <;> decide
  | divider mark =>
    cases hc
    refine iff_of_true (by cases a <;> trivial) ?_
    rcases isDivider_cases hb with rfl | rfl | rfl <;> cases a <;> rfl
  | quoted quote value =>
    cases hc
    refine iff_of_true (by cases a <;> trivial) ?_
    rcases isQuote_cases hb.1 with rfl | rfl <;> cases a <;> rfl
  | opening name =>
    cases name with
    | nil =>
      cases hc
      cases a <;> simp [Lexeme.Apart, Lexeme.absorbs, isSpaceChar]
    | cons d name =>
      cases hc
      have hw := hb c List.mem_cons_self
      obtain ⟨hs, -⟩ := kinds_of_isWordChar hw
      cases a <;> simp [Lexeme.Apart, Lexeme.absorbs, hw, hs]
  | closing =>
    cases hc
    exact iff_of_true (by cases a <;> trivial) (by cases a <;> rfl)

@[simp] theorem renderLexemes_nil : renderLexemes [] = [] := rfl

@[simp] theorem renderLexemes_cons (l : Lexeme) (lexemes : List Lexeme) :
    renderLexemes (l :: lexemes) = l.render ++ renderLexemes lexemes := rfl

@[simp] theorem renderLexemes_append (lexemes later : List Lexeme) :
    renderLexemes (lexemes ++ later) = renderLexemes lexemes ++ renderLexemes later :=
  List.flatMap_append

theorem Lexeme.render_ne_nil {l : Lexeme} (h : l.Wellformed) : l.render ≠ [] := by
  cases l with
  | word text => exact h.1
  | space text => exact h.1
  | divider mark => exact List.cons_ne_nil _ _
  | quoted quote value => exact List.cons_ne_nil _ _
  | opening name => exact List.append_ne_nil_of_right_ne_nil _ (List.cons_ne_nil _ _)
  | closing => exact List.cons_ne_nil _ _

/-- In front of lexemes of their form, a lexeme is apart from the first if it does not go on with
the first character of their text. -/
theorem head_apart_iff {l : Lexeme} {lexemes : List Lexeme} (h : ∀ m ∈ lexemes, m.Wellformed) :
    (∀ m ∈ lexemes.head?, l.Apart m) ↔
      ∀ c, (renderLexemes lexemes).head? = some c → l.absorbs c = false := by
  cases lexemes with
  | nil => simp
  | cons m lexemes =>
    have hm := h m List.mem_cons_self
    obtain ⟨c, tail, hc⟩ := List.exists_cons_of_ne_nil (Lexeme.render_ne_nil hm)
    simp [hc, apart_iff hm hc]

theorem Canonical.cons_iff {l : Lexeme} {lexemes : List Lexeme} :
    Canonical (l :: lexemes) ↔
      (l.Wellformed ∧ ∀ c, (renderLexemes lexemes).head? = some c → l.absorbs c = false) ∧
        Canonical lexemes := by
  constructor
  · rintro ⟨hw, ha⟩
    obtain ⟨hl, hw⟩ := List.forall_mem_cons.mp hw
    obtain ⟨hh, ha⟩ := List.isChain_cons.mp ha
    exact ⟨⟨hl, (head_apart_iff hw).mp hh⟩, ⟨hw, ha⟩⟩
  · rintro ⟨⟨hl, hh⟩, ⟨hw, ha⟩⟩
    exact ⟨List.forall_mem_cons.mpr ⟨hl, hw⟩,
      List.isChain_cons.mpr ⟨(head_apart_iff hw).mpr hh, ha⟩⟩

theorem canonical_singleton_iff {l : Lexeme} : Canonical [l] ↔ l.Wellformed :=
  ⟨fun h => h.wellformed l List.mem_cons_self,
    fun h => ⟨List.forall_mem_singleton.mpr h, .singleton l⟩⟩

theorem Canonical.append_iff {lexemes later : List Lexeme} :
    Canonical (lexemes ++ later) ↔ Canonical lexemes ∧ Canonical later ∧
      ∀ l ∈ lexemes.getLast?, ∀ m ∈ later.head?, l.Apart m := by
  constructor
  · rintro ⟨hw, ha⟩
    obtain ⟨hl, hm⟩ := List.forall_mem_append.mp hw
    obtain ⟨hla, hma, hb⟩ := List.isChain_append.mp ha
    exact ⟨⟨hl, hla⟩, ⟨hm, hma⟩, hb⟩
  · rintro ⟨⟨hl, hla⟩, ⟨hm, hma⟩, hb⟩
    exact ⟨List.forall_mem_append.mpr ⟨hl, hm⟩, List.isChain_append.mpr ⟨hla, hma, hb⟩⟩

theorem canonical_of_lexemes? {s : Text} {lexemes : List Lexeme} (h : lexemes? s = some lexemes) :
    renderLexemes lexemes = s ∧ Canonical lexemes := by
  induction s using lexemes?.induct generalizing lexemes with
  | case1 =>
    rw [lexemes?] at h
    cases h
    exact ⟨rfl, ⟨List.forall_mem_nil _, .nil⟩⟩
  | case2 c tail hn =>
    rw [lexemes?] at h
    split at h
    · cases h
    · next hn' => rw [hn] at hn'; cases hn'
  | case3 c tail lexeme rest hn _ ih =>
    rw [lexemes?] at h
    split at h
    · cases h
    · next lexeme' rest' hn' =>
      rw [hn] at hn'
      cases hn'
      obtain ⟨later, hl, he⟩ := Option.map_eq_some_iff.mp h
      cases he
      obtain ⟨hr, hc⟩ := ih hl
      obtain ⟨hw, hs⟩ := wellformed_of_nextLexeme? hn
      refine ⟨?_, Canonical.cons_iff.mpr ⟨⟨hw, ?_⟩, hc⟩⟩
      · rw [renderLexemes_cons, hr, nextLexeme?_render hn]
      · rwa [hr]

theorem lexemes?_of_canonical {lexemes : List Lexeme} (h : Canonical lexemes) :
    lexemes? (renderLexemes lexemes) = some lexemes := by
  induction lexemes with
  | nil => rw [renderLexemes_nil, lexemes?]
  | cons l lexemes ih =>
    obtain ⟨⟨hw, hs⟩, hc⟩ := Canonical.cons_iff.mp h
    obtain ⟨c, tail, ht⟩ := List.exists_cons_of_ne_nil (Lexeme.render_ne_nil hw)
    have hn := nextLexeme?_of_wellformed hw hs
    rw [renderLexemes_cons]
    rw [ht, List.cons_append] at hn ⊢
    rw [lexemes?]
    split
    · next hx => rw [hn] at hx; cases hx
    · next hx =>
      rw [hn] at hx
      cases hx
      rw [ih hc]
      rfl

/-- A text is cut into exactly those lexemes that make it up and are canonical. -/
theorem lexemes?_eq_some_iff {s : Text} {lexemes : List Lexeme} :
    lexemes? s = some lexemes ↔ renderLexemes lexemes = s ∧ Canonical lexemes := by
  constructor
  · exact canonical_of_lexemes?
  · rintro ⟨rfl, h⟩
    exact lexemes?_of_canonical h

end StyleValues
