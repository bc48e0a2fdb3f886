import Mathlib.Data.List.TakeWhile
import StyleValues.Definition.Grammar

/-!
# The tokens of an import

An import is read off the tokens on either side of the last `from`: behind it
stands a quoted path alone, and in front of it a list of entries between
commas, perhaps inside one pair of parentheses (`read_imports_tokens_iff`). Spaces
count nowhere.
-/

set_option autoImplicit false

namespace StyleValues

open Token

/-! ### Cutting lists -/

section
variable {α : Type} {p : α → Bool}

theorem splitAtLast?_eq_none_iff {l : List α} :
    splitAtLast? p l = none ↔ ∀ a ∈ l, p a = false := by
  induction l with
  | nil => simp [splitAtLast?]
  | cons a rest ih =>
    rw [splitAtLast?, List.forall_mem_cons, ← ih]
    cases splitAtLast? p rest <;> simp

theorem splitAtLast?_append {left right : List α} {a : α} (ha : p a)
    (hr : ∀ b ∈ right, p b = false) :
    splitAtLast? p (left ++ a :: right) = some (left, right) := by
  induction left with
  | nil => rw [List.nil_append, splitAtLast?, splitAtLast?_eq_none_iff.mpr hr, if_pos ha]
  | cons b left ih => rw [List.cons_append, splitAtLast?, ih]

theorem splitAtLast?_eq_some_iff {l left right : List α} :
    splitAtLast? p l = some (left, right) ↔
      ∃ a, l = left ++ a :: right ∧ p a ∧ ∀ b ∈ right, p b = false := by
  constructor
  · intro h
    induction l generalizing left with
    | nil => cases h
    | cons a rest ih =>
      rw [splitAtLast?] at h
      cases hs : splitAtLast? p rest with
      | none =>
        rw [hs] at h
        obtain ⟨ha, he⟩ := Option.ite_none_right_eq_some.mp h
        cases he
        exact ⟨a, rfl, ha, splitAtLast?_eq_none_iff.mp hs⟩
      | some parts =>
        rw [hs] at h
        cases h
        obtain ⟨b, rfl, hb, hr⟩ := ih hs
        exact ⟨b, rfl, hb, hr⟩
  · rintro ⟨a, rfl, ha, hr⟩
    exact splitAtLast?_append ha hr

end

theorem splitAtCommas_append {chunk tail : List Token} (h : ∀ t ∈ chunk, t.isComma = false)
    {first : List Token} {rest : List (List Token)} (ht : splitAtCommas tail = first :: rest) :
    splitAtCommas (chunk ++ tail) = (chunk ++ first) :: rest := by
  induction chunk with
  | nil => exact ht
  | cons t chunk ih =>
    obtain ⟨hc, h⟩ := List.forall_mem_cons.mp h
    rw [List.cons_append, splitAtCommas, ih h]
    simp [hc]

theorem splitAtCommas_of_no_comma {chunk : List Token} (h : ∀ t ∈ chunk, t.isComma = false) :
    splitAtCommas chunk = [chunk] := by
  have hs := splitAtCommas_append h (by rw [splitAtCommas] : splitAtCommas [] = [[]])
  rwa [List.append_nil] at hs

theorem splitAtCommas_comma {chunk : List Token} (h : ∀ t ∈ chunk, t.isComma = false)
    {comma : Token} (hc : comma.isComma) (rest : List Token) :
    splitAtCommas (chunk ++ comma :: rest) = chunk :: splitAtCommas rest := by
  have hs : splitAtCommas (comma :: rest) = [] :: splitAtCommas rest := by
    rw [splitAtCommas, if_pos hc]
  rw [splitAtCommas_append h hs, List.append_nil]

theorem splitAtCommas_ne_nil (tokens : List Token) : splitAtCommas tokens ≠ [] := by
  cases tokens with
  | nil => exact List.cons_ne_nil _ _
  | cons t rest =>
    rw [splitAtCommas]
    split
    · exact List.cons_ne_nil _ _
    · split <;> exact List.cons_ne_nil _ _

theorem comma_cases (tokens : List Token) : (∀ t ∈ tokens, t.isComma = false) ∨
    ∃ chunk comma rest, tokens = chunk ++ comma :: rest ∧ (∀ t ∈ chunk, t.isComma = false) ∧
      comma.isComma := by
  induction tokens with
  | nil => exact .inl (List.forall_mem_nil _)
  | cons t tokens ih =>
    cases hc : t.isComma with
    | true => exact .inr ⟨[], t, tokens, rfl, List.forall_mem_nil _, hc⟩
    | false =>
      rcases ih with ih | ⟨chunk, comma, rest, rfl, h, hm⟩
      · exact .inl (List.forall_mem_cons.mpr ⟨hc, ih⟩)
      · exact .inr ⟨t :: chunk, comma, rest, rfl, List.forall_mem_cons.mpr ⟨hc, h⟩, hm⟩

theorem eq_divider_of_isComma {t : Token} (h : t.isComma) : t = .divider ',' := by
  cases t with
  | divider mark => rw [eq_of_beq h]
  | _ => cases h

/-! ### Spaces -/

def AllSpace (tokens : List Token) : Prop := ∀ t ∈ tokens, t.isSpace

def solid (tokens : List Token) : List Token := tokens.filter fun t => !t.isSpace

theorem solid_append (tokens later : List Token) :
    solid (tokens ++ later) = solid tokens ++ solid later :=
  List.filter_append ..

theorem solid_eq_nil_iff {tokens : List Token} : solid tokens = [] ↔ AllSpace tokens := by
  simp [solid, AllSpace, List.filter_eq_nil_iff]

theorem solid_eq_cons_iff {tokens rest : List Token} {t : Token} :
    solid tokens = t :: rest ↔ ∃ spaces tail, tokens = spaces ++ t :: tail ∧ AllSpace spaces ∧
      t.isSpace = false ∧ solid tail = rest := by
  simp [solid, AllSpace, List.filter_eq_cons_iff]

theorem forall_of_solid {p : Token → Prop} {tokens : List Token} (hs : ∀ text, p (.space text))
    (h : ∀ t ∈ solid tokens, p t) : ∀ t ∈ tokens, p t := by
  intro t ht
  cases hsp : t.isSpace with
  | true =>
    cases t with
    | space text => exact hs text
    | _ => cases hsp
  | false => exact h t (List.mem_filter.mpr ⟨ht, by rw [hsp]; rfl⟩)

theorem exists_trimSpaces (tokens : List Token) :
    ∃ before after, AllSpace before ∧ AllSpace after ∧
      tokens = before ++ trimSpaces tokens ++ after := by
  have hw : ∀ l : List Token, AllSpace (l.takeWhile Token.isSpace) := fun l t ht =>
    List.mem_takeWhile_imp ht
  refine ⟨tokens.takeWhile Token.isSpace,
    ((tokens.dropWhile Token.isSpace).reverse.takeWhile Token.isSpace).reverse, hw _,
    fun t ht => hw _ t (List.mem_reverse.mp ht), ?_⟩
  rw [trimSpaces, List.append_assoc, ← List.reverse_append, List.takeWhile_append_dropWhile,
    List.reverse_reverse, List.takeWhile_append_dropWhile]

theorem dropWhile_spaces {spaces : List Token} (h : AllSpace spaces) {t : Token}
    (ht : t.isSpace = false) (rest : List Token) :
    (spaces ++ t :: rest).dropWhile Token.isSpace = t :: rest := by
  rw [List.dropWhile_append_of_pos h, List.dropWhile_cons_of_neg (by simp [ht])]

theorem trimSpaces_padded {before after : List Token} (hb : AllSpace before) (ha : AllSpace after)
    {tokens : List Token} {first last : Token} {tail init : List Token}
    (hf : tokens = first :: tail) (hl : tokens = init ++ [last])
    (hfs : first.isSpace = false) (hls : last.isSpace = false) :
    trimSpaces (before ++ tokens ++ after) = tokens := by
  have hr : AllSpace after.reverse := fun t ht => ha t (List.mem_reverse.mp ht)
  rw [trimSpaces, List.append_assoc, hf, List.cons_append, dropWhile_spaces hb hfs,
    ← List.cons_append, ← hf, hl, List.reverse_append, List.reverse_append, List.reverse_singleton,
    List.singleton_append, dropWhile_spaces hr hls, List.reverse_cons, List.reverse_reverse]

/-! ### Entries -/

theorem checkName_eq_ok_iff {name : Text} : checkName name = .ok () ↔ name ∉ reservedWords := by
  rw [checkName]
  split
  · next h => simp [List.contains_iff_mem.mp h]
  · next h => simpa using h

inductive EntryParts : ImportedName → List Token → Prop
  | bare {name : Text} : name ∉ reservedWords → EntryParts ⟨name, name⟩ [.word name]
  | renamed {source name : Text} : source ∉ reservedWords → name ∉ reservedWords →
    EntryParts ⟨source, name⟩ [.word source, .word "as".toList, .word name]

theorem eq_word_of_isWord {word : Text} {t : Token} (h : t.isWord word) : t = .word word := by
  cases t with
  | word text => rw [eq_of_beq h]
  | _ => cases h

theorem readImportedName_eq_ok_iff {chunk : List Token} {entry : ImportedName} :
    readImportedName chunk = .ok entry ↔ EntryParts entry (solid chunk) := by
  rw [readImportedName, solid]
  dsimp only
  generalize chunk.filter (fun t => !t.isSpace) = parts
  constructor
  · intro h
    split at h
    · cases h
    · split at h
      · cases h
      · next he =>
        split at h
        · cases h
        · next hs =>
          split at h
          · cases h
          · next hn =>
            cases h
            rw [checkName_eq_ok_iff] at hs hn
            split at he
            · cases he
              exact .bare hs
            · split at he
              · next hl =>
                cases he
                cases eq_word_of_isWord hl
                exact .renamed hs hn
              · cases he
            · cases he
  · intro h
    cases h with
    | bare hn =>
      rw [← checkName_eq_ok_iff] at hn
      simp [Token.isQuoted, hn]
    | renamed hs hn =>
      rw [← checkName_eq_ok_iff] at hs hn
      simp [Token.isQuoted, Token.isWord, hs, hn]

theorem readPath_eq_ok_iff {tokens : List Token} {path : Text} :
    readPath tokens = .ok path ↔ ∃ quote, solid tokens = [.quoted quote path] := by
  rw [readPath, solid]
  generalize tokens.filter (fun t => !t.isSpace) = parts
  constructor
  · intro h
    split at h
    · cases h
    · cases h
      exact ⟨_, rfl⟩
    · cases h
    · cases h
  · rintro ⟨quote, rfl⟩
    rfl

/-! ### Lists -/

inductive ListTokens : List ImportedName → List Token → Prop
  | one {entry : ImportedName} {chunk : List Token} :
    EntryParts entry (solid chunk) → ListTokens [entry] chunk
  | more {entry : ImportedName} {entries : List ImportedName} {chunk rest : List Token} :
    EntryParts entry (solid chunk) → ListTokens entries rest →
    ListTokens (entry :: entries) (chunk ++ .divider ',' :: rest)

theorem no_comma_of_entryParts {entry : ImportedName} {chunk : List Token}
    (h : EntryParts entry (solid chunk)) : ∀ t ∈ chunk, t.isComma = false := by
  refine forall_of_solid (fun _ => rfl) ?_
  generalize solid chunk = parts at h
  cases h <;> simp [Token.isComma]

theorem readImportedNames_cons_eq_ok_iff {chunk : List Token} {chunks : List (List Token)}
    {entries : List ImportedName} : readImportedNames (chunk :: chunks) = .ok entries ↔
      ∃ entry rest, entries = entry :: rest ∧ readImportedName chunk = .ok entry ∧
        readImportedNames chunks = .ok rest := by
  rw [readImportedNames]
  cases readImportedName chunk with
  | error e => simp
  | ok entry =>
    cases readImportedNames chunks with
    | error e => simp
    | ok rest => simp [eq_comm]

theorem listTokens_of_readImportedNames {tokens : List Token} {entries : List ImportedName}
    (h : readImportedNames (splitAtCommas tokens) = .ok entries) : ListTokens entries tokens := by
  induction entries generalizing tokens with
  | nil =>
    obtain ⟨chunk, chunks, hs⟩ := List.exists_cons_of_ne_nil (splitAtCommas_ne_nil tokens)
    rw [hs, readImportedNames_cons_eq_ok_iff] at h
    obtain ⟨_, _, he, -⟩ := h
    cases he
  | cons entry entries ih =>
    rcases comma_cases tokens with hc | ⟨chunk, comma, rest, rfl, hc, hm⟩
    · rw [splitAtCommas_of_no_comma hc, readImportedNames_cons_eq_ok_iff] at h
      obtain ⟨_, _, he, hn, hr⟩ := h
      cases he
      cases hr
      exact .one (readImportedName_eq_ok_iff.mp hn)
    · rw [splitAtCommas_comma hc hm, readImportedNames_cons_eq_ok_iff] at h
      obtain ⟨_, _, he, hn, hr⟩ := h
      cases he
      cases eq_divider_of_isComma hm
      exact .more (readImportedName_eq_ok_iff.mp hn) (ih hr)

theorem readImportedNames_of_listTokens {tokens : List Token} {entries : List ImportedName}
    (h : ListTokens entries tokens) : readImportedNames (splitAtCommas tokens) = .ok entries := by
  induction h with
  | one he =>
    rw [splitAtCommas_of_no_comma (no_comma_of_entryParts he), readImportedNames_cons_eq_ok_iff]
    exact ⟨_, [], rfl, readImportedName_eq_ok_iff.mpr he, rfl⟩
  | more he _ ih =>
    rw [splitAtCommas_comma (no_comma_of_entryParts he) rfl, readImportedNames_cons_eq_ok_iff]
    exact ⟨_, _, rfl, readImportedName_eq_ok_iff.mpr he, ih⟩

theorem ListTokens.ne_nil {entries : List ImportedName} {tokens : List Token}
    (h : ListTokens entries tokens) : entries ≠ [] ∧ tokens ≠ [] := by
  cases h with
  | one he =>
    refine ⟨List.cons_ne_nil _ _, ?_⟩
    rintro rfl
    cases he
  | more => simp

theorem ListTokens.spaces_append {entries : List ImportedName} {tokens spaces : List Token}
    (hs : AllSpace spaces) (h : ListTokens entries tokens) :
    ListTokens entries (spaces ++ tokens) := by
  have hp : ∀ chunk, solid (spaces ++ chunk) = solid chunk := fun chunk => by
    rw [solid_append, solid_eq_nil_iff.mpr hs, List.nil_append]
  cases h with
  | one he => exact .one (by rwa [hp])
  | more he hr =>
    rw [← List.append_assoc]
    exact .more (by rwa [hp]) hr

/-! ### Imports -/

structure Tight (tokens : List Token) : Prop where
  starts : ∃ word tail, tokens = .word word :: tail
  ends : ∃ init word, tokens = init ++ [.word word]

theorem Tight.append {first last : List Token} (hf : Tight first) (hl : Tight last)
    (middle : List Token) : Tight (first ++ (middle ++ last)) := by
  obtain ⟨word, tail, rfl⟩ := hf.starts
  obtain ⟨init, word', rfl⟩ := hl.ends
  exact ⟨⟨word, _, List.cons_append⟩, ⟨.word word :: tail ++ (middle ++ init), word', by simp⟩⟩

theorem Tight.trimSpaces {tokens before after : List Token} (h : Tight tokens)
    (hb : AllSpace before) (ha : AllSpace after) :
    trimSpaces (before ++ tokens ++ after) = tokens := by
  obtain ⟨word, tail, hf⟩ := h.starts
  obtain ⟨init, word', hl⟩ := h.ends
  exact trimSpaces_padded hb ha hf hl rfl rfl

theorem importList_plain {tokens before after : List Token} (h : Tight tokens)
    (hb : AllSpace before) (ha : AllSpace after) :
    importList (before ++ tokens ++ after) = tokens := by
  rw [importList, h.trimSpaces hb ha]
  obtain ⟨word, tail, rfl⟩ := h.starts
  split
  · next hc => cases hc
  · rfl

theorem importList_enclosed {tokens before after before' after' : List Token} (h : Tight tokens)
    (hb : AllSpace before) (ha : AllSpace after) (hb' : AllSpace before') (ha' : AllSpace after') :
    importList (before ++ .call [] (before' ++ tokens ++ after') :: after) = tokens := by
  have hc : trimSpaces (before ++ [.call [] (before' ++ tokens ++ after')] ++ after) =
      [.call [] (before' ++ tokens ++ after')] :=
    trimSpaces_padded hb ha rfl (List.nil_append _).symm rfl rfl
  rw [List.append_assoc, List.singleton_append] at hc
  rw [importList, hc]
  exact h.trimSpaces hb' ha'

theorem readImports_eq_ok_iff {names path : List Token} {target : Text}
    {entries : List ImportedName} :
    readImports names path = .ok (.imports target entries) ↔
      readPath path = .ok target ∧ ListTokens entries (importList names) := by
  rw [readImports]
  cases readPath path with
  | error e => simp
  | ok t =>
    dsimp only
    constructor
    · intro h
      split at h
      · cases h
      · split at h
        · cases h
        · next he => cases h; exact ⟨rfl, listTokens_of_readImportedNames he⟩
    · rintro ⟨ht, hl⟩
      cases ht
      rw [if_neg (by simpa using hl.ne_nil.2), readImportedNames_of_listTokens hl]

theorem readValue_ne_imports (s path : Text) (names : List ImportedName) :
    readValue s ≠ .ok (.imports path names) := by
  rw [readValue]
  grind

theorem read_eq_readValue {s : Text} (h : Text.hasSubtext "@value".toList s = false)
    (hf : (tokenize? s).bind (splitAtLast? (Token.isWord "from".toList)) = none) :
    Definition.read s = readValue s := by
  rw [Definition.read, h, hf]
  rfl

theorem read_eq_readImports {s : Text} {names path : List Token}
    (h : Text.hasSubtext "@value".toList s = false)
    (hf : (tokenize? s).bind (splitAtLast? (Token.isWord "from".toList)) = some (names, path)) :
    Definition.read s = readImports names path := by
  rw [Definition.read, h, hf]
  rfl

theorem not_isWord_of_solid {tokens : List Token} {quote : Char} {value : Text}
    (h : solid tokens = [.quoted quote value]) (word : Text) :
    ∀ t ∈ tokens, t.isWord word = false := by
  refine forall_of_solid (fun _ => rfl) ?_
  rw [h]
  exact List.forall_mem_singleton.mpr rfl

/-- A text imports names exactly if they are listed in front of its last `from`, and there is
nothing but the path behind it. -/
theorem read_imports_tokens_iff {s path : Text} {entries : List ImportedName}
    (hv : Text.hasSubtext "@value".toList s = false) :
    Definition.read s = .ok (.imports path entries) ↔
      ∃ names behind, tokenize? s = some (names ++ .word "from".toList :: behind) ∧
        ListTokens entries (importList names) ∧ ∃ quote, solid behind = [.quoted quote path] := by
  constructor
  · intro h
    cases hf : (tokenize? s).bind (splitAtLast? (Token.isWord "from".toList)) with
    | none =>
      rw [read_eq_readValue hv hf] at h
      exact absurd h (readValue_ne_imports s path entries)
    | some parts =>
      obtain ⟨names, behind⟩ := parts
      rw [read_eq_readImports hv hf, readImports_eq_ok_iff, readPath_eq_ok_iff] at h
      obtain ⟨tokens, ht, hs⟩ := Option.bind_eq_some_iff.mp hf
      obtain ⟨_, rfl, hw, -⟩ := splitAtLast?_eq_some_iff.mp hs
      cases eq_word_of_isWord hw
      exact ⟨names, behind, ht, h.2, h.1⟩
  · rintro ⟨names, behind, ht, hl, quote, hq⟩
    have hf : (tokenize? s).bind (splitAtLast? (Token.isWord "from".toList)) =
        some (names, behind) := by
      rw [ht, Option.bind_some]
      exact splitAtLast?_append (beq_self_eq_true "from".toList) (not_isWord_of_solid hq _)
    rw [read_eq_readImports hv hf, readImports_eq_ok_iff, readPath_eq_ok_iff]
    exact ⟨⟨quote, hq⟩, hl⟩

theorem hasSubtext_of_read_imports {s path : Text} {names : List ImportedName}
    (h : Definition.read s = .ok (.imports path names)) :
    Text.hasSubtext "@value".toList s = false := by
  rw [← Bool.not_eq_true]
  intro hv
  rw [Definition.read, if_pos hv] at h
  cases h

theorem names_ne_nil_of_read {s path : Text} {names : List ImportedName}
    (h : Definition.read s = .ok (.imports path names)) : names ≠ [] := by
  obtain ⟨_, _, -, hl, -⟩ := (read_imports_tokens_iff (hasSubtext_of_read_imports h)).mp h
  exact hl.ne_nil.1

end StyleValues
