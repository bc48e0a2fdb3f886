import StyleValues.Proofs.Definition.ImportGrammar

/-!
# Statements that end in a from-clause

A text is read as an import only if all of it can be cut into tokens. Without
quotes, parentheses and unusual white space that can always be done, so what
ends in `from` and a path is an import or nothing. A closing parenthesis that
was never opened, or a form feed, leaves no tokens, and what stands around it
is read as a name and its value.
-/

set_option autoImplicit false

namespace StyleValues

open Text Token

def fromClause (left : Text) (quote : Char) (path : Text) : Text :=
  left ++ " from ".toList ++ quote :: (path ++ [quote])

def Unopened (s : Text) : Prop := ∀ c ∈ s, isQuote c = false ∧ c ≠ '('

def Cuttable (s : Text) : Prop := Unopened s ∧ ∀ c ∈ s, c ≠ ')' ∧ (isBlank c → isSpaceChar c)

/-! ### Texts that can be cut -/

section
variable {s rest : Text} {ts : List Token}

theorem Cuttable.of_subset {t : Text} (h : Cuttable s) (ht : ∀ c ∈ t, c ∈ s) : Cuttable t :=
  ⟨fun c hc => h.1 c (ht c hc), fun c hc => h.2 c (ht c hc)⟩

theorem Cuttable.kind {c : Char} (h : Cuttable s) (hc : c ∈ s) (hs : isSpaceChar c = false)
    (hd : isDivider c = false) : isWordChar c := by
  obtain ⟨hq, ho⟩ := h.1 c hc
  obtain ⟨hcl, hb⟩ := h.2 c hc
  have hblank : isBlank c = false := by
    rw [Bool.eq_false_iff]
    intro hb'
    rw [hb hb'] at hs
    cases hs
  simp [isWordChar, hblank, hd, hq, ho, hcl]

theorem endsWord_dropWhile {a : Text} (h : Cuttable a) (he : EndsWord rest) :
    EndsWord (a.dropWhile isWordChar ++ rest) := by
  cases hd : a.dropWhile isWordChar with
  | nil => exact he
  | cons d tail =>
    rintro _ ⟨⟩
    have hmem : d ∈ a := (List.dropWhile_sublist isWordChar).subset (by rw [hd]; exact List.mem_cons_self)
    exact ⟨stop_of_dropWhile (by rw [hd]; rfl), (h.1 d hmem).2⟩

theorem tokens_of_cuttable_cons {c : Char} {tail : Text} (h : Cuttable (c :: tail))
    (hs : isSpaceChar c = false)
    (hnext : ∀ t, t <:+ tail → ∃ front, tokenize? (t ++ ' ' :: rest) = some (front ++ ts)) :
    ∃ front, tokenize? (c :: tail ++ ' ' :: rest) = some (front ++ ts) := by
  cases hd : isDivider c with
  | true =>
    obtain ⟨front, hf⟩ := hnext tail (List.suffix_refl tail)
    exact ⟨.divider c :: front, (tokenize?_eq_cons_iff (l := .divider c) rfl).mpr
      ⟨hd, _, rfl, fun _ _ => rfl, hf⟩⟩
  | false =>
    obtain ⟨front, hf⟩ := hnext _ (List.dropWhile_suffix isWordChar)
    have hword : (Lexeme.word (c :: tail.takeWhile isWordChar)).Wellformed :=
      ⟨List.cons_ne_nil _ _, List.forall_mem_cons.mpr
        ⟨h.kind List.mem_cons_self hs hd, fun d hm => List.mem_takeWhile_imp hm⟩⟩
    have hend := endsWord_dropWhile (h.of_subset fun d hm => List.mem_cons_of_mem c hm)
      (endsWord_cons (c := ' ') (.inl rfl) rest)
    have hw := tokens_of_word hword hend hf
    rw [← List.append_assoc, List.cons_append, List.takeWhile_append_dropWhile] at hw
    exact ⟨.word (c :: tail.takeWhile isWordChar) :: front, hw⟩

/-- In front of a space and what can be cut itself, a text can be cut. -/
theorem tokens_of_cuttable (h : Cuttable s) (hr : EndsSpaces rest) (ht : tokenize? rest = some ts) :
    ∃ front, tokenize? (s ++ ' ' :: rest) = some (front ++ ts) := by
  -- A step takes the leading spaces and one divider or word; what is left is shorter.
  induction hn : s.length using Nat.strong_induction_on generalizing s with
  | _ n ih =>
  have hspaces : Spaces (s.takeWhile isSpaceChar) := fun c hc => List.mem_takeWhile_imp hc
  have hsplit : s.takeWhile isSpaceChar ++ s.dropWhile isSpaceChar = s :=
    List.takeWhile_append_dropWhile
  cases hd : s.dropWhile isSpaceChar with
  | nil =>
    rw [hd, List.append_nil] at hsplit
    have hall : Spaces (s ++ [' ']) := by
      rw [← hsplit]
      exact List.forall_mem_append.mpr ⟨hspaces, List.forall_mem_singleton.mpr rfl⟩
    obtain ⟨spaces, -, hs⟩ := tokens_of_spaces hall hr ht
    rw [List.append_assoc, List.singleton_append] at hs
    exact ⟨spaces, hs⟩
  | cons c tail =>
    have hsuffix : c :: tail <:+ s := hd ▸ List.dropWhile_suffix isSpaceChar
    have hstop : isSpaceChar c = false := stop_of_dropWhile (by rw [hd]; rfl)
    have hc := h.of_subset fun d hm => hsuffix.subset hm
    obtain ⟨front, hf⟩ := tokens_of_cuttable_cons hc hstop fun t htail =>
      have hts : t <:+ c :: tail := htail.trans (List.suffix_cons c tail)
      have hlt : t.length < n := by
        have := htail.length_le
        have := hsuffix.length_le
        rw [List.length_cons] at this
        omega
      ih t.length hlt (h.of_subset fun d hm => hsuffix.subset (hts.subset hm)) rfl
    obtain ⟨spaces, -, hs⟩ := tokens_of_spaces hspaces (by rintro _ ⟨⟩; exact hstop) hf
    rw [← List.append_assoc, ← hd, hsplit, ← List.append_assoc] at hs
    exact ⟨spaces ++ front, hs⟩

end

/-! ### Texts that cannot be cut -/

/-- A character that no token begins with: a closing parenthesis, or white space that is none of the
four spaces. -/
def Stray (c : Char) : Prop := c = ')' ∨ (isBlank c ∧ isSpaceChar c = false)

section
variable {mark : Char} (hm : Stray mark)
include hm

theorem append_stray_cases {front back left more : Text} (hf : ∀ c ∈ front, ¬ Stray c)
    (h : front ++ back = left ++ mark :: more) :
    ∃ left', left = front ++ left' ∧ back = left' ++ mark :: more := by
  rcases List.append_eq_append_iff.mp h with ⟨left', rfl, hb⟩ | ⟨inner, rfl, hb⟩
  · exact ⟨left', rfl, hb⟩
  · cases inner with
    | nil => exact ⟨[], by simp, by simpa using hb.symm⟩
    | cons c inner =>
      obtain ⟨rfl, -⟩ := List.cons.inj hb
      exact absurd hm (hf mark (by simp))

omit hm in
theorem not_stray_of_isWordChar {c : Char} (h : isWordChar c) : ¬ Stray c := by
  rintro (rfl | ⟨hb, -⟩)
  · cases h
  · simp [isWordChar, hb] at h

omit hm in
theorem not_stray_of_isDivider {c : Char} (h : isDivider c) : ¬ Stray c := by
  simp only [isDivider, Bool.or_eq_true, beq_iff_eq] at h
  rcases h with (rfl | rfl) | rfl <;> rintro (h | ⟨h, -⟩) <;> cases h

theorem not_unopened_of_begin {c : Char} {tail left more : Text} (hc : isQuote c ∨ c = '(')
    (h : c :: tail = left ++ mark :: more) : ¬ Unopened left := by
  intro hu
  cases left with
  | nil =>
    cases h
    rcases hc with hc | rfl
    · rcases isQuote_cases hc with rfl | rfl <;> rcases hm with hm | ⟨hm, -⟩ <;> cases hm
    · rcases hm with hm | ⟨hm, -⟩ <;> cases hm
  | cons d left =>
    cases h
    obtain ⟨hq, ho⟩ := hu c List.mem_cons_self
    rcases hc with hc | hc
    · rw [hq] at hc
      cases hc
    · exact ho hc

/-- In front of a stray character among tokens, a string or a call was begun. -/
theorem not_unopened_of_tokens {ts : List Token} {left more : Text} (hc : Canonical (lexemesOf ts))
    (h : renderAll ts = left ++ mark :: more) : ¬ Unopened left := by
  induction ts generalizing left with
  | nil => simp [renderAll] at h
  | cons t ts ih =>
    rw [lexemesOf_cons, Canonical.append_iff] at hc
    obtain ⟨hwell, hrest, -⟩ := hc
    rw [renderAll] at h
    have hpass : (∀ c ∈ t.render, ¬ Stray c) → ¬ Unopened left := by
      intro hf hu
      obtain ⟨left', rfl, hb⟩ := append_stray_cases hm hf h
      exact ih hrest hb fun c hc => hu c (List.mem_append_right _ hc)
    cases t with
    | word text =>
      rw [lexemes, canonical_singleton_iff] at hwell
      exact hpass fun c hc => not_stray_of_isWordChar (hwell.2 c hc)
    | space text =>
      rw [lexemes, canonical_singleton_iff] at hwell
      refine hpass fun c hc => ?_
      rintro (rfl | ⟨-, hs⟩)
      · cases hwell.2 _ hc
      · rw [hwell.2 c hc] at hs
        cases hs
    | divider mark =>
      rw [lexemes, canonical_singleton_iff] at hwell
      refine hpass fun c hc => ?_
      rw [List.mem_singleton.mp hc]
      exact not_stray_of_isDivider hwell
    | quoted quote value =>
      rw [lexemes, canonical_singleton_iff] at hwell
      exact not_unopened_of_begin hm (.inl hwell.1) h
    | call name arguments =>
      obtain ⟨hn, -⟩ := canonical_call_iff.mp hwell
      rw [render, List.append_assoc] at h
      obtain ⟨left', rfl, hb⟩ :=
        append_stray_cases hm (fun c hc => not_stray_of_isWordChar (hn c hc)) h
      exact fun hu => not_unopened_of_begin hm (.inr rfl) hb
        fun c hc => hu c (List.mem_append_right _ hc)

theorem tokenize?_eq_none_of_stray {left : Text} (h : Unopened left) (hc : mark ∈ left)
    (rest : Text) : tokenize? (left ++ rest) = none := by
  obtain ⟨front, more, rfl⟩ := List.append_of_mem hc
  rw [Option.eq_none_iff_forall_not_mem]
  intro ts ht
  obtain ⟨hr, hcanonical⟩ := tokenize?_eq_some_iff.mp ht
  rw [List.append_assoc, List.cons_append] at hr
  exact not_unopened_of_tokens hm hcanonical hr fun c hc => h c (List.mem_append_left _ hc)

end

/-! ### From-clauses -/

section
variable {left path : Text} {quote : Char}

theorem fromClause_eq (left : Text) (quote : Char) (path : Text) :
    fromClause left quote path =
      left ++ ' ' :: ("from".toList ++ ' ' :: quote :: (path ++ [quote])) := by
  simp [fromClause]

theorem quotedBody_of_plain (h : ∀ c ∈ path, c ≠ quote ∧ c ≠ '\\') : QuotedBody quote path := by
  induction path with
  | nil => exact .nil
  | cons c path ih =>
    obtain ⟨⟨hq, hb⟩, h⟩ := List.forall_mem_cons.mp h
    exact .char hq hb (ih h)

theorem tokens_of_clause (hq : isQuote quote) (hp : QuotedBody quote path) :
    tokenize? ("from".toList ++ ' ' :: quote :: (path ++ [quote])) =
      some [.word "from".toList, .space [' '], .quoted quote path] := by
  have hpath : tokenize? (quote :: (path ++ [quote])) = some [.quoted quote path] := by
    refine (tokenize?_eq_cons_iff (l := .quoted quote path) rfl).mpr
      ⟨⟨hq, hp⟩, [], (List.append_nil _).symm, fun _ _ => rfl, tokenize?_eq_nil_iff.mpr rfl⟩
  have hstop : isSpaceChar quote = false := by rcases isQuote_cases hq with rfl | rfl <;> rfl
  have hspace : tokenize? (' ' :: quote :: (path ++ [quote])) =
      some [.space [' '], .quoted quote path] :=
    (tokenize?_eq_cons_iff (l := .space [' ']) rfl).mpr
      ⟨⟨List.cons_ne_nil _ _, List.forall_mem_singleton.mpr rfl⟩, _, rfl,
        by rintro _ ⟨⟩; exact hstop, hpath⟩
  exact tokens_of_word ⟨by decide, List.all_eq_true.mp rfl⟩ (endsWord_cons (c := ' ') (.inl rfl) _)
    hspace

theorem readImports_of_path {names behind : List Token} (h : readPath behind = .ok path) :
    (∃ entries, readImports names behind = .ok (.imports path entries)) ∨
      ∃ rejection, readImports names behind = .error rejection := by
  rw [readImports, h]
  dsimp only
  split
  · exact .inr ⟨_, rfl⟩
  · split
    · exact .inr ⟨_, rfl⟩
    · exact .inl ⟨_, rfl⟩

theorem read_of_cuttable (h : Cuttable left) (hq : isQuote quote) (hp : QuotedBody quote path) :
    (∃ names, Definition.read (fromClause left quote path) = .ok (.imports path names)) ∨
      ∃ rejection, Definition.read (fromClause left quote path) = .error rejection := by
  cases hv : hasSubtext "@value".toList (fromClause left quote path) with
  | true => exact .inr ⟨.mergedStatements, by rw [Definition.read, if_pos hv]⟩
  | false =>
    have hfrom : EndsSpaces ("from".toList ++ ' ' :: quote :: (path ++ [quote])) :=
      endsSpaces_word ⟨by decide, List.all_eq_true.mp rfl⟩ _
    obtain ⟨names, ht⟩ := tokens_of_cuttable h hfrom (tokens_of_clause hq hp)
    rw [← fromClause_eq] at ht
    have hlast : (tokenize? (fromClause left quote path)).bind
        (splitAtLast? (Token.isWord "from".toList)) =
          some (names, [.space [' '], .quoted quote path]) := by
      rw [ht, Option.bind_some]
      have hpath : solid [.space [' '], .quoted quote path] = [.quoted quote path] := rfl
      exact splitAtLast?_append (beq_self_eq_true "from".toList) (not_isWord_of_solid hpath _)
    rw [read_eq_readImports hv hlast]
    exact readImports_of_path rfl

/-- A statement that ends in a from-clause imports from its path or is refused, unless the text in
front of the clause has no tokens. A closing parenthesis that nothing opens, or white space that is
none of the four spaces, leaves it to the grammar of values. -/
theorem read_fromClause (hl : Unopened left) (hq : isQuote quote)
    (hp : ∀ c ∈ path, isQuote c = false ∧ c ≠ '\\') :
    ((∀ c ∈ left, c ≠ ')' ∧ (isBlank c → isSpaceChar c)) →
      (∃ names, Definition.read (fromClause left quote path) = .ok (.imports path names)) ∨
        ∃ rejection, Definition.read (fromClause left quote path) = .error rejection) ∧
    ((∃ c ∈ left, c = ')' ∨ (isBlank c ∧ isSpaceChar c = false)) →
      Definition.read (fromClause left quote path) =
        if hasSubtext "@value".toList (fromClause left quote path) then .error .mergedStatements
        else readValue (fromClause left quote path)) := by
  constructor
  · intro h
    refine read_of_cuttable ⟨hl, h⟩ hq (quotedBody_of_plain fun c hc => ⟨?_, (hp c hc).2⟩)
    rintro rfl
    rw [(hp c hc).1] at hq
    cases hq
  · rintro ⟨c, hc, hm⟩
    rw [Definition.read, fromClause_eq, tokenize?_eq_none_of_stray hm hl hc]
    rfl

theorem unopened_closing : Unopened ['a', ')'] :=
  List.forall_mem_cons.mpr ⟨⟨rfl, by decide⟩, List.forall_mem_singleton.mpr ⟨rfl, by decide⟩⟩

theorem unopened_formFeed : Unopened ['a', '\x0c'] :=
  List.forall_mem_cons.mpr ⟨⟨rfl, by decide⟩, List.forall_mem_singleton.mpr ⟨rfl, by decide⟩⟩

/-- A word in front of the clause, and one with a parenthesis that was never opened or with a form
feed behind it. -/
theorem read_fromClause_of_word :
    ((∀ c ∈ ['a'], c ≠ ')' ∧ (isBlank c → isSpaceChar c)) ∧
      ((∃ names, Definition.read (fromClause ['a'] '"' ['x']) = .ok (.imports ['x'] names)) ∨
        ∃ rejection, Definition.read (fromClause ['a'] '"' ['x']) = .error rejection)) ∧
    (')' ∈ ['a', ')'] ∧ Definition.read (fromClause ['a', ')'] '"' ['x']) =
      if hasSubtext "@value".toList (fromClause ['a', ')'] '"' ['x']) then .error .mergedStatements
      else readValue (fromClause ['a', ')'] '"' ['x'])) ∧
    (isBlank '\x0c' ∧ isSpaceChar '\x0c' = false ∧
      Definition.read (fromClause ['a', '\x0c'] '"' ['x']) =
        if hasSubtext "@value".toList (fromClause ['a', '\x0c'] '"' ['x']) then .error .mergedStatements
        else readValue (fromClause ['a', '\x0c'] '"' ['x'])) :=
  have hp : ∀ c ∈ ['x'], isQuote c = false ∧ c ≠ '\\' := List.forall_mem_singleton.mpr ⟨rfl, by decide⟩
  have hword : ∀ c ∈ ['a'], c ≠ ')' ∧ (isBlank c → isSpaceChar c) :=
    List.forall_mem_singleton.mpr ⟨by decide, fun h => absurd h (by decide)⟩
  have hclosing : ')' ∈ ['a', ')'] := List.mem_cons_of_mem _ (List.mem_cons_self ..)
  have hfeed : '\x0c' ∈ ['a', '\x0c'] := List.mem_cons_of_mem _ (List.mem_cons_self ..)
  ⟨⟨hword, (read_fromClause (List.forall_mem_singleton.mpr ⟨rfl, by decide⟩) rfl hp).1 hword⟩,
    ⟨hclosing, (read_fromClause unopened_closing rfl hp).2 ⟨')', hclosing, .inl rfl⟩⟩,
    rfl, rfl, (read_fromClause unopened_formFeed rfl hp).2 ⟨'\x0c', hfeed, .inr ⟨rfl, rfl⟩⟩⟩

/-- A closing parenthesis makes a value of an import, and so does a form feed. -/
theorem read_fromClause_of_closing :
    (Unopened ['a', ')'] ∧
      fromClause ['a', ')'] '\'' ['x'] = "a) from 'x'".toList ∧
      Definition.read "a) from 'x'".toList = .ok (.value "a)".toList "from 'x'".toList)) ∧
    Unopened ['a', '\x0c'] ∧
      fromClause ['a', '\x0c'] '\'' ['x'] = "a\x0c from 'x'".toList ∧
      Definition.read "a\x0c from 'x'".toList = .ok (.value ['a'] "from 'x'".toList) := by
  refine ⟨⟨unopened_closing, by decide, ?_⟩, unopened_formFeed, by decide, ?_⟩
  · rw [read_eq_readValue (by decide) (by cbv)]
    cbv
  · rw [read_eq_readValue (by decide) (by cbv)]
    cbv

end

end StyleValues
