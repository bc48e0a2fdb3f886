import Mathlib.Data.List.Permutation
import StyleValues.Proofs.Definition.ImportTokens
import StyleValues.Proofs.Definition.Tokens

/-!
# The grammar of imports

An import lists its entries in front of the word `from`, bare or inside one
pair of parentheses, and names a quoted path behind it. Each entry is a name
or `name as name`. A text is read as an import exactly if it is one by this
grammar, and then with the names and the path that the grammar gives it
(`read_imports_iff`).
-/

set_option autoImplicit false

namespace StyleValues

open Token

def Spaces (s : Text) : Prop := ∀ c ∈ s, isSpaceChar c

structure NameWord (word : Text) : Prop where
  ne_nil : word ≠ []
  chars : ∀ c ∈ word, isWordChar c
  not_as : word ≠ "as".toList
  not_from : word ≠ "from".toList

theorem NameWord.wellformed {word : Text} (h : NameWord word) : (Lexeme.word word).Wellformed :=
  ⟨h.ne_nil, h.chars⟩

inductive ItemText : ImportedName → Text → Prop
  | bare {word : Text} : NameWord word → ItemText ⟨word, word⟩ word
  | renamed {source s t name : Text} : NameWord source → Spaces s → s ≠ [] → Spaces t → t ≠ [] →
    NameWord name → ItemText ⟨source, name⟩ (source ++ s ++ "as".toList ++ t ++ name)

inductive ListText : List ImportedName → Text → Prop
  | one {entry : ImportedName} {item : Text} : ItemText entry item → ListText [entry] item
  | more {entry : ImportedName} {entries : List ImportedName} {item s t list : Text} :
    ItemText entry item → Spaces s → Spaces t → ListText entries list →
    ListText (entry :: entries) (item ++ s ++ [','] ++ t ++ list)

inductive FrontText (entries : List ImportedName) : Text → Prop
  | plain {list s : Text} : ListText entries list → Spaces s → s ≠ [] →
    FrontText entries (list ++ s)
  | enclosed {r list s t : Text} : Spaces r → ListText entries list → Spaces s → Spaces t →
    FrontText entries (['('] ++ r ++ list ++ s ++ [')'] ++ t)

inductive ImportText (path : Text) (entries : List ImportedName) : Text → Prop
  | mk {s front t u : Text} {quote : Char} : Spaces s → FrontText entries front → Spaces t →
    isQuote quote → QuotedBody quote path → Spaces u →
    ImportText path entries (s ++ front ++ "from".toList ++ t ++ [quote] ++ path ++ [quote] ++ u)

/-! ### Where a word ends -/

def EndsWord (s : Text) : Prop := ∀ c, s.head? = some c → isWordChar c = false ∧ c ≠ '('

def EndsSpaces (s : Text) : Prop := ∀ c, s.head? = some c → isSpaceChar c = false

theorem endsWord_cons {c : Char} (h : isSpaceChar c ∨ isDivider c ∨ isQuote c) (s : Text) :
    EndsWord (c :: s) := by
  rintro _ ⟨⟩
  rw [← Bool.not_eq_true]
  refine ⟨fun hw => ?_, ?_⟩
  · obtain ⟨hs, hd, hq, -⟩ := kinds_of_isWordChar hw
    simp [hs, hd, hq] at h
  · rintro rfl
    simp [isSpaceChar, isDivider, isQuote] at h

theorem endsWord_spaces_append {a s : Text} (ha : Spaces a) (h : a ≠ [] ∨ EndsWord s) :
    EndsWord (a ++ s) := by
  cases a with
  | nil => exact h.resolve_left (absurd rfl)
  | cons c a => exact endsWord_cons (.inl (ha c List.mem_cons_self)) _

theorem ne_nil_of_endsWord {a word rest : Text} (h : EndsWord (a ++ (word ++ rest)))
    (hw : (Lexeme.word word).Wellformed) : a ≠ [] := by
  rintro rfl
  obtain ⟨c, tail, rfl⟩ := List.exists_cons_of_ne_nil hw.1
  have hf := (h c rfl).1
  rw [hw.2 c List.mem_cons_self] at hf
  cases hf

theorem endsSpaces_word {word : Text} (hw : (Lexeme.word word).Wellformed) (s : Text) :
    EndsSpaces (word ++ s) := by
  obtain ⟨c, tail, rfl⟩ := List.exists_cons_of_ne_nil hw.1
  rintro _ ⟨⟩
  exact (kinds_of_isWordChar (hw.2 c List.mem_cons_self)).1

theorem tokenize?_eq_word_iff {word s : Text} {ts : List Token} :
    tokenize? s = some (.word word :: ts) ↔ (Lexeme.word word).Wellformed ∧
      ∃ rest, s = word ++ rest ∧ EndsWord rest ∧ tokenize? rest = some ts := by
  rw [tokenize?_eq_cons_iff rfl]
  simp [Lexeme.render, Lexeme.absorbs, EndsWord]

/-! ### From tokens to texts

Tokens that are read off the start of a text take a part of it that the grammar
knows, with spaces around it; `rest` is where the reading goes on.
-/

theorem nameWord_of_not_reserved {word : Text} (hr : word ∉ reservedWords)
    (hw : (Lexeme.word word).Wellformed) : NameWord word where
  ne_nil := hw.1
  chars := hw.2
  not_as := fun h => hr (h ▸ List.mem_cons_self)
  not_from := fun h => hr (h ▸ List.mem_cons_of_mem _ List.mem_cons_self)

theorem spaces_of_tokens {spaces ts : List Token} {s : Text} (h : AllSpace spaces)
    (hs : tokenize? s = some (spaces ++ ts)) :
    ∃ a rest, s = a ++ rest ∧ Spaces a ∧ tokenize? rest = some ts := by
  induction spaces generalizing s with
  | nil => exact ⟨[], s, rfl, List.forall_mem_nil _, hs⟩
  | cons t spaces ih =>
    obtain ⟨ht, hl⟩ := List.forall_mem_cons.mp h
    cases t with
    | space text =>
      obtain ⟨hw, rest, rfl, -, hr⟩ :=
        (tokenize?_eq_cons_iff (l := .space text) rfl).mp hs
      obtain ⟨a, rest, rfl, ha, hr⟩ := ih hl hr
      exact ⟨text ++ a, rest, (List.append_assoc ..).symm,
        List.forall_mem_append.mpr ⟨hw.2, ha⟩, hr⟩
    | _ => cases ht

theorem spaces_of_tokens_end {spaces : List Token} {s : Text} (h : AllSpace spaces)
    (hs : tokenize? s = some spaces) : Spaces s := by
  rw [← List.append_nil spaces] at hs
  obtain ⟨a, rest, rfl, ha, hr⟩ := spaces_of_tokens h hs
  obtain rfl := tokenize?_eq_nil_iff.mp hr
  rwa [List.append_nil]

theorem word_of_tokens {word s : Text} {chunk parts ts : List Token}
    (hp : solid chunk = .word word :: parts) (hs : tokenize? s = some (chunk ++ ts)) :
    ∃ a rest tail, s = a ++ (word ++ rest) ∧ Spaces a ∧ (Lexeme.word word).Wellformed ∧
      EndsWord rest ∧ solid tail = parts ∧ tokenize? rest = some (tail ++ ts) := by
  obtain ⟨spaces, tail, rfl, hsp, -, ht⟩ := solid_eq_cons_iff.mp hp
  rw [List.append_assoc, List.cons_append] at hs
  obtain ⟨a, rest, rfl, ha, hr⟩ := spaces_of_tokens hsp hs
  obtain ⟨hw, rest, rfl, he, hr⟩ := tokenize?_eq_word_iff.mp hr
  exact ⟨a, rest, tail, rfl, ha, hw, he, ht, hr⟩

theorem item_of_tokens {entry : ImportedName} {chunk ts : List Token} {s : Text}
    (h : EntryParts entry (solid chunk)) (hs : tokenize? s = some (chunk ++ ts)) :
    ∃ a item b rest, s = a ++ (item ++ (b ++ rest)) ∧ Spaces a ∧ Spaces b ∧ ItemText entry item ∧
      EndsWord (b ++ rest) ∧ tokenize? rest = some ts := by
  generalize hp : solid chunk = parts at h
  cases h with
  | bare hn =>
    obtain ⟨a, rest, tail, rfl, ha, hw, he, ht, hr⟩ := word_of_tokens hp hs
    obtain ⟨b, rest, rfl, hb, hr⟩ := spaces_of_tokens (solid_eq_nil_iff.mp ht) hr
    exact ⟨a, _, b, rest, rfl, ha, hb, .bare (nameWord_of_not_reserved hn hw), he, hr⟩
  | @renamed source name hn hm =>
    obtain ⟨a, rest, tail, rfl, ha, hw, he, ht, hr⟩ := word_of_tokens hp hs
    obtain ⟨b, rest, tail, rfl, hb, hw', he', ht, hr⟩ := word_of_tokens ht hr
    obtain ⟨c, rest, tail, rfl, hc, hw'', he'', ht, hr⟩ := word_of_tokens ht hr
    obtain ⟨d, rest, rfl, hd, hr⟩ := spaces_of_tokens (solid_eq_nil_iff.mp ht) hr
    refine ⟨a, source ++ b ++ "as".toList ++ c ++ name, d, rest, by simp, ha, hd, ?_, he'', hr⟩
    exact .renamed (nameWord_of_not_reserved hn hw) hb (ne_nil_of_endsWord he hw') hc
      (ne_nil_of_endsWord he' hw'') (nameWord_of_not_reserved hm hw'')

theorem list_of_tokens {entries : List ImportedName} {tokens ts : List Token} {s : Text}
    (h : ListTokens entries tokens) (hs : tokenize? s = some (tokens ++ ts)) :
    ∃ a list b rest, s = a ++ (list ++ (b ++ rest)) ∧ Spaces a ∧ Spaces b ∧ ListText entries list ∧
      EndsWord (b ++ rest) ∧ tokenize? rest = some ts := by
  induction h generalizing s with
  | one he =>
    obtain ⟨a, item, b, rest, rfl, ha, hb, hi, hr⟩ := item_of_tokens he hs
    exact ⟨a, item, b, rest, rfl, ha, hb, .one hi, hr⟩
  | more he _ ih =>
    rw [List.append_assoc, List.cons_append] at hs
    obtain ⟨a, item, b, rest, rfl, ha, hb, hi, -, hr⟩ := item_of_tokens he hs
    obtain ⟨-, rest, rfl, -, hr⟩ :=
      (tokenize?_eq_cons_iff (l := .divider ',') rfl).mp hr
    obtain ⟨c, list, d, rest, rfl, hc, hd, hl, hr⟩ := ih hr
    exact ⟨a, item ++ b ++ [','] ++ c ++ list, d, rest, by simp [Lexeme.render], ha, hd,
      .more hi hb hc hl, hr⟩

theorem front_of_tokens {entries : List ImportedName} {names ts : List Token} {s word : Text}
    (h : ListTokens entries (importList names))
    (hs : tokenize? s = some (names ++ .word word :: ts)) :
    ∃ a front rest, s = a ++ (front ++ (word ++ rest)) ∧ Spaces a ∧ FrontText entries front ∧
      tokenize? rest = some ts := by
  obtain ⟨before, after, hb, ha, hn⟩ := exists_trimSpaces names
  rw [hn, List.append_assoc, List.append_assoc] at hs
  obtain ⟨a, rest, rfl, hsa, hs⟩ := spaces_of_tokens hb hs
  rw [importList] at h
  split at h
  -- In parentheses: the last entry may touch the closing one, and that may touch `from`.
  · next arguments ht =>
    obtain ⟨before', after', hb', ha', hn'⟩ := exists_trimSpaces arguments
    rw [ht, List.singleton_append, tokenize?_eq_call_iff] at hs
    obtain ⟨-, inside, rest, rfl, hi, hr⟩ := hs
    rw [hn', List.append_assoc] at hi
    obtain ⟨r, rest', rfl, hsr, hi⟩ := spaces_of_tokens hb' hi
    obtain ⟨r', list, b, rest', rfl, hsr', hsb, hl, -, hi⟩ := list_of_tokens h hi
    have hsc := spaces_of_tokens_end ha' hi
    obtain ⟨d, rest, rfl, hsd, hr⟩ := spaces_of_tokens ha hr
    obtain ⟨-, rest, rfl, -, hr⟩ := tokenize?_eq_word_iff.mp hr
    exact ⟨a, _, rest, by simp, hsa, .enclosed (List.forall_mem_append.mpr ⟨hsr, hsr'⟩) hl
      (List.forall_mem_append.mpr ⟨hsb, hsc⟩) hsd, hr⟩
  -- Bare: the last entry ends in a word, which `from` would go on in.
  · obtain ⟨a', list, b, rest, rfl, hsa', hsb, hl, he, hr⟩ := list_of_tokens h hs
    obtain ⟨c, rest, rfl, hsc, hr⟩ := spaces_of_tokens ha hr
    obtain ⟨hw, rest, rfl, -, hr⟩ := tokenize?_eq_word_iff.mp hr
    rw [← List.append_assoc b] at he
    exact ⟨a ++ a', _, rest, by simp, List.forall_mem_append.mpr ⟨hsa, hsa'⟩,
      .plain hl (List.forall_mem_append.mpr ⟨hsb, hsc⟩) (ne_nil_of_endsWord he hw), hr⟩

/-! ### From texts to tokens

A text is cut from its end on, since every word and every run of spaces has to
stop at what follows it.
-/

theorem not_reserved_of_nameWord {word : Text} (h : NameWord word) : word ∉ reservedWords := by
  simpa [reservedWords] using ⟨h.not_as, h.not_from⟩

theorem tokens_of_spaces {a rest : Text} {ts : List Token} (ha : Spaces a) (hr : EndsSpaces rest)
    (hs : tokenize? rest = some ts) :
    ∃ spaces, AllSpace spaces ∧ tokenize? (a ++ rest) = some (spaces ++ ts) := by
  cases a with
  | nil => exact ⟨[], List.forall_mem_nil _, hs⟩
  | cons c a =>
    exact ⟨[.space (c :: a)], List.forall_mem_singleton.mpr rfl,
      (tokenize?_eq_cons_iff (l := .space (c :: a)) rfl).mpr
        ⟨⟨List.cons_ne_nil c a, ha⟩, rest, rfl, hr, hs⟩⟩

theorem tokens_of_spaces_end {a : Text} (ha : Spaces a) :
    ∃ spaces, AllSpace spaces ∧ tokenize? a = some spaces := by
  have he : EndsSpaces [] := fun c hc => by cases hc
  obtain ⟨spaces, hs, ht⟩ := tokens_of_spaces ha he (tokenize?_eq_nil_iff.mpr rfl)
  rw [List.append_nil, List.append_nil] at ht
  exact ⟨spaces, hs, ht⟩

theorem tokens_of_word {word rest : Text} {ts : List Token} (hw : (Lexeme.word word).Wellformed)
    (hr : EndsWord rest) (hs : tokenize? rest = some ts) :
    tokenize? (word ++ rest) = some (.word word :: ts) :=
  tokenize?_eq_word_iff.mpr ⟨hw, rest, rfl, hr, hs⟩

theorem tokens_of_item {entry : ImportedName} {item rest : Text} {ts : List Token}
    (h : ItemText entry item) (hr : EndsWord rest) (hs : tokenize? rest = some ts) :
    ∃ chunk, tokenize? (item ++ rest) = some (chunk ++ ts) ∧ EntryParts entry (solid chunk) ∧
      Tight chunk := by
  cases h with
  | bare hw =>
    exact ⟨[.word item], tokens_of_word hw.wellformed hr hs,
      .bare (not_reserved_of_nameWord hw), ⟨⟨item, [], rfl⟩, ⟨[], item, rfl⟩⟩⟩
  | @renamed source b c name hw hb hbn hc hcn hv =>
    have has : (Lexeme.word "as".toList).Wellformed := ⟨by decide, List.all_eq_true.mp rfl⟩
    have h1 := tokens_of_word hv.wellformed hr hs
    obtain ⟨sp, hsp, h2⟩ := tokens_of_spaces hc (endsSpaces_word hv.wellformed rest) h1
    have h3 := tokens_of_word has (endsWord_spaces_append hc (.inl hcn)) h2
    obtain ⟨sp', hsp', h4⟩ := tokens_of_spaces hb (endsSpaces_word has _) h3
    have h5 := tokens_of_word hw.wellformed (endsWord_spaces_append hb (.inl hbn)) h4
    refine ⟨.word source :: (sp' ++ .word "as".toList :: (sp ++ [.word name])), ?_, ?_, ?_⟩
    · simpa using h5
    · have hf : solid (.word source :: (sp' ++ .word "as".toList :: (sp ++ [.word name]))) =
          [.word source, .word "as".toList, .word name] :=
        solid_eq_cons_iff.mpr ⟨[], _, rfl, List.forall_mem_nil _, rfl,
          solid_eq_cons_iff.mpr ⟨sp', _, rfl, hsp', rfl,
            solid_eq_cons_iff.mpr ⟨sp, [], rfl, hsp, rfl, rfl⟩⟩⟩
      rw [hf]
      exact .renamed (not_reserved_of_nameWord hw) (not_reserved_of_nameWord hv)
    · exact ⟨⟨source, _, rfl⟩,
        ⟨.word source :: (sp' ++ .word "as".toList :: sp), name, by simp⟩⟩

theorem ItemText.endsSpaces {entry : ImportedName} {item : Text} (h : ItemText entry item)
    (rest : Text) : EndsSpaces (item ++ rest) := by
  cases h with
  | bare hw => exact endsSpaces_word hw.wellformed rest
  | renamed hw =>
    simp only [List.append_assoc]
    exact endsSpaces_word hw.wellformed _

theorem ListText.endsSpaces {entries : List ImportedName} {list : Text}
    (h : ListText entries list) (rest : Text) : EndsSpaces (list ++ rest) := by
  cases h with
  | one hi => exact hi.endsSpaces rest
  | more hi =>
    simp only [List.append_assoc]
    exact hi.endsSpaces _

theorem tokens_of_list {entries : List ImportedName} {list rest : Text} {ts : List Token}
    (h : ListText entries list) (hr : EndsWord rest) (hs : tokenize? rest = some ts) :
    ∃ tokens, tokenize? (list ++ rest) = some (tokens ++ ts) ∧ ListTokens entries tokens ∧
      Tight tokens := by
  induction h with
  | one hi =>
    obtain ⟨chunk, hc, he, ht⟩ := tokens_of_item hi hr hs
    exact ⟨chunk, hc, .one he, ht⟩
  | @more _ _ item a b list hi ha hb hl ih =>
    obtain ⟨tokens, h1, hlt, ht⟩ := ih
    obtain ⟨sp, hsp, h2⟩ := tokens_of_spaces hb (hl.endsSpaces rest) h1
    have h3 : tokenize? (',' :: (b ++ (list ++ rest))) =
        some (.divider ',' :: (sp ++ (tokens ++ ts))) :=
      (tokenize?_eq_cons_iff (l := .divider ',') rfl).mpr
        ⟨rfl, _, rfl, fun _ _ => rfl, h2⟩
    obtain ⟨sp', hsp', h4⟩ := tokens_of_spaces ha (by rintro _ ⟨⟩; rfl) h3
    obtain ⟨chunk, h5, he, ht'⟩ := tokens_of_item hi
      (endsWord_spaces_append ha (.inr (endsWord_cons (.inr (.inl rfl)) _))) h4
    refine ⟨(chunk ++ sp') ++ .divider ',' :: (sp ++ tokens), ?_, ?_, ?_⟩
    · simpa using h5
    · refine .more ?_ (hlt.spaces_append hsp)
      rwa [solid_append, solid_eq_nil_iff.mpr hsp', List.append_nil]
    · simpa using ht'.append ht (sp' ++ .divider ',' :: sp)

theorem tokens_of_front {entries : List ImportedName} {a front rest : Text} {ts : List Token}
    (ha : Spaces a) (h : FrontText entries front) (hr : EndsSpaces rest)
    (hs : tokenize? rest = some ts) :
    ∃ names, tokenize? (a ++ (front ++ rest)) = some (names ++ ts) ∧
      ListTokens entries (importList names) := by
  cases h with
  | @plain list b hl hb hn =>
    obtain ⟨after, hsa, h1⟩ := tokens_of_spaces hb hr hs
    obtain ⟨tokens, h2, hlt, ht⟩ := tokens_of_list hl (endsWord_spaces_append hb (.inl hn)) h1
    obtain ⟨before, hsb, h3⟩ := tokens_of_spaces ha (hl.endsSpaces _) h2
    refine ⟨before ++ tokens ++ after, by simpa using h3, ?_⟩
    rwa [importList_plain ht hsb hsa]
  | @enclosed r list b d hr' hl hb hd =>
    obtain ⟨after', hsa', h1⟩ := tokens_of_spaces_end hb
    have he : EndsWord b := by
      have hn : EndsWord [] := fun c hc => by cases hc
      have ha := endsWord_spaces_append hb (.inr hn)
      rwa [List.append_nil] at ha
    obtain ⟨tokens, h2, hlt, ht⟩ := tokens_of_list hl he h1
    obtain ⟨before', hsb', h3⟩ := tokens_of_spaces hr' (hl.endsSpaces _) h2
    obtain ⟨after, hsa, h4⟩ := tokens_of_spaces hd hr hs
    have h5 := tokenize?_eq_call_iff.mpr ⟨List.forall_mem_nil _, _, _, rfl, h3, h4⟩
    obtain ⟨before, hsb, h6⟩ := tokens_of_spaces ha (by rintro _ ⟨⟩; rfl) h5
    refine ⟨before ++ .call [] (before' ++ tokens ++ after') :: after, by simpa using h6, ?_⟩
    rwa [importList_enclosed ht hsb hsa hsb' hsa']

/-! ### Imports -/

/-- A text without another statement in it is read as an import exactly if it is one by the
grammar. -/
theorem read_imports_iff {s path : Text} {entries : List ImportedName}
    (hv : ¬ "@value".toList <:+: s) :
    Definition.read s = .ok (.imports path entries) ↔ ImportText path entries s := by
  have hf : (Lexeme.word "from".toList).Wellformed := ⟨by decide, List.all_eq_true.mp rfl⟩
  rw [read_imports_tokens_iff (by rwa [← Bool.not_eq_true, hasSubtext_iff])]
  constructor
  · rintro ⟨names, behind, hs, hl, quote, hq⟩
    obtain ⟨a, front, rest, rfl, ha, hfr, hr⟩ := front_of_tokens hl hs
    obtain ⟨before, after, rfl, hb, -, hsa⟩ := solid_eq_cons_iff.mp hq
    obtain ⟨t, rest, rfl, ht, hr⟩ := spaces_of_tokens hb hr
    obtain ⟨⟨hqc, hqb⟩, rest, rfl, -, hr⟩ :=
      (tokenize?_eq_cons_iff (l := .quoted quote path) rfl).mp hr
    have hi := ImportText.mk ha hfr ht hqc hqb (spaces_of_tokens_end (solid_eq_nil_iff.mp hsa) hr)
    simpa [Lexeme.render] using hi
  · intro h
    cases h with
    | @mk a front t u quote ha hfr ht hq hb hu =>
      obtain ⟨after, hsa, h1⟩ := tokens_of_spaces_end hu
      have h2 : tokenize? (quote :: (path ++ quote :: u)) =
          some (.quoted quote path :: after) :=
        (tokenize?_eq_cons_iff (l := .quoted quote path) rfl).mpr
          ⟨⟨hq, hb⟩, u, by simp [Lexeme.render], fun _ _ => rfl, h1⟩
      have hqs : EndsSpaces (quote :: (path ++ quote :: u)) := by
        rintro _ ⟨⟩
        rcases isQuote_cases hq with rfl | rfl <;> rfl
      obtain ⟨before, hsb, h3⟩ := tokens_of_spaces ht hqs h2
      have h4 := tokens_of_word hf
        (endsWord_spaces_append ht (.inr (endsWord_cons (.inr (.inr hq)) _))) h3
      obtain ⟨names, h5, hl⟩ := tokens_of_front ha hfr (endsSpaces_word hf _) h4
      refine ⟨names, before ++ .quoted quote path :: after, by simpa using h5, hl, quote, ?_⟩
      exact solid_eq_cons_iff.mpr ⟨before, after, rfl, hsb, rfl, solid_eq_nil_iff.mpr hsa⟩

def enclosedImport : Text := "(red as danger ,\n blue) from'it\\'s \"a\"' ".toList

theorem read_imports_iff_enclosed :
    ¬ "@value".toList <:+: enclosedImport ∧
    Definition.read enclosedImport = .ok (.imports "it\\'s \"a\"".toList
      [⟨"red".toList, "danger".toList⟩, ⟨"blue".toList, "blue".toList⟩]) ∧
    ImportText "it\\'s \"a\"".toList
      [⟨"red".toList, "danger".toList⟩, ⟨"blue".toList, "blue".toList⟩] enclosedImport := by
  have hv : Text.hasSubtext "@value".toList enclosedImport = false := by cbv
  have hf : (tokenize? enclosedImport).bind (splitAtLast? (Token.isWord "from".toList)) = some
      ([.call [] [.word "red".toList, .space [' '], .word "as".toList, .space [' '],
        .word "danger".toList, .space [' '], .divider ',', .space "\n ".toList,
        .word "blue".toList], .space [' ']],
      [.quoted '\'' "it\\'s \"a\"".toList, .space [' ']]) := by cbv
  have hr : Definition.read enclosedImport = .ok (.imports "it\\'s \"a\"".toList
      [⟨"red".toList, "danger".toList⟩, ⟨"blue".toList, "blue".toList⟩]) := by
    rw [read_eq_readImports hv hf]
    cbv
  have hi : ¬ "@value".toList <:+: enclosedImport := by rwa [← hasSubtext_iff, Bool.not_eq_true]
  exact ⟨hi, hr, (read_imports_iff hi).mp hr⟩

/-! ### The parts of an import -/

theorem ItemText.nameWords {entry : ImportedName} {item : Text} (h : ItemText entry item) :
    NameWord entry.source ∧ NameWord entry.name := by
  cases h with
  | bare hw => exact ⟨hw, hw⟩
  | renamed hw _ _ _ _ hv => exact ⟨hw, hv⟩

theorem ListText.nameWords {entries : List ImportedName} {list : Text} (h : ListText entries list) :
    ∀ entry ∈ entries, NameWord entry.source ∧ NameWord entry.name := by
  induction h with
  | one hi => exact List.forall_mem_singleton.mpr hi.nameWords
  | more hi _ _ _ ih => exact List.forall_mem_cons.mpr ⟨hi.nameWords, ih⟩

theorem FrontText.nameWords {entries : List ImportedName} {front : Text}
    (h : FrontText entries front) : ∀ entry ∈ entries, NameWord entry.source ∧ NameWord entry.name := by
  cases h with
  | plain hl => exact hl.nameWords
  | enclosed _ hl => exact hl.nameWords

section
variable {s path : Text} {entries : List ImportedName}
  (h : Definition.read s = .ok (.imports path entries))
include h

theorem nameWords_of_read : ∀ entry ∈ entries, NameWord entry.source ∧ NameWord entry.name := by
  obtain ⟨_, _, ht, hl, -⟩ := (read_imports_tokens_iff (hasSubtext_of_read_imports h)).mp h
  obtain ⟨_, _, _, -, -, hf, -⟩ := front_of_tokens hl ht
  exact hf.nameWords

/-- The path of an import can stand between the quotes that it was read from. -/
theorem quotedBody_of_read : ∃ quote, isQuote quote ∧ QuotedBody quote path := by
  obtain ⟨names, behind, ht, -, quote, hq⟩ :=
    (read_imports_tokens_iff (hasSubtext_of_read_imports h)).mp h
  obtain ⟨spaces, tail, rfl, -, -, -⟩ := solid_eq_cons_iff.mp hq
  have hm : Lexeme.quoted quote path ∈
      lexemesOf (names ++ .word "from".toList :: (spaces ++ .quoted quote path :: tail)) := by
    simp [lexemes]
  exact ⟨quote, (tokenize?_eq_some_iff.mp ht).2.wellformed _ hm⟩

end

end StyleValues
