import StyleValues.Proofs.Sheet.Legibility
import StyleValues.Proofs.Text.Bytes
import StyleValues.Proofs.Text.Trimming

/-!
# Texts that stand for themselves

A text is closed if a semicolon behind it is the first character that ends a
statement. A node that is put together from closed texts with the layout of a
new node is read back, whatever follows it.
-/

set_option autoImplicit false

namespace StyleValues

open Text

/-- A text in which no character ends a statement, and which leaves nothing open behind it. -/
def SelfContained (s : Text) : Prop :=
  (Reading.split {} s).2 = [] ∧ (s.foldl Reading.step {}).inCode ∧
    (s.foldl Reading.step {}).depth = 0

/-- A value that an entry can have: it is trimmed and stands for itself. -/
def PlainValue (value : Text) : Prop :=
  NoBlankStart value ∧ NoBlankEnd value ∧ SelfContained value

/-- A trimmed text that a semicolon behind it ends, and nothing inside it. -/
structure PartText (t : Text) : Prop where
  trimmed : trim t = t
  closed : statementEnd (t ++ [';']) 0 = .ok (t.byteLength, .semicolon)

/-- A text with which a rule or a declaration can begin. -/
structure LeadText (t : Text) : Prop extends PartText t where
  ne_nil : t ≠ []
  no_at : ¬ ['@'] <+: t
  no_comment : ¬ ['/', '*'] <+: t

/-- A text that can be the property of a declaration: with the colon behind it, it stands for itself,
and no colon in front of that one is found. -/
structure PropertyText (p : Text) : Prop where
  trimmed : trim p = p
  ne_nil : p ≠ []
  no_at : ¬ ['@'] <+: p
  no_comment : ¬ ['/', '*'] <+: p
  closed : SelfContained (p ++ [':'])
  colon : splitAtColon? (p ++ [':']) = some (p, [])

/-! ### Reading on -/

def readingMarks : List Char := ['\\', '"', '\'', '/', '*', '(', ')', ';', '{', '}']

def Neutral (s : Text) : Prop := ∀ c ∈ s, c ∉ readingMarks

theorem Neutral.cons {c : Char} {s : Text} (hc : c ∉ readingMarks) (hs : Neutral s) :
    Neutral (c :: s) :=
  List.forall_mem_cons.mpr ⟨hc, hs⟩

theorem Neutral.append {s t : Text} (hs : Neutral s) (ht : Neutral t) : Neutral (s ++ t) :=
  List.forall_mem_append.mpr ⟨hs, ht⟩

theorem neutral_of_all {p : Char → Bool} (hp : readingMarks.all fun c => !p c) {s : Text}
    (h : ∀ c ∈ s, p c) : Neutral s := by
  intro c hc hm
  have hn := List.all_eq_true.mp hp c hm
  rw [h c hc] at hn
  cases hn

theorem neutral_of_blanks {s : Text} (h : ∀ c ∈ s, isBlank c) : Neutral s := neutral_of_all rfl h

theorem neutral_of_names {s : Text} (h : ∀ c ∈ s, isNameChar c) : Neutral s := neutral_of_all rfl h

theorem isNameChar_of_isBlank {c : Char} (h : isBlank c) : isNameChar c = false := by
  have hc : c = Char.ofNat c.toNat := (Char.ofNat_toNat c).symm
  have hm : c.toNat ∈ [9, 10, 11, 12, 13, 0x20, 0x85, 0xa0, 0x1680, 0x2000, 0x2001, 0x2002, 0x2003,
      0x2004, 0x2005, 0x2006, 0x2007, 0x2008, 0x2009, 0x200a, 0x2028, 0x2029, 0x202f, 0x205f,
      0x3000] := by
    simp only [isBlank, Bool.or_eq_true, Bool.and_eq_true, decide_eq_true_eq, beq_iff_eq] at h
    simp only [List.mem_cons, List.not_mem_nil, or_false]
    omega
  have hall : ∀ n ∈ [9, 10, 11, 12, 13, 0x20, 0x85, 0xa0, 0x1680, 0x2000, 0x2001, 0x2002, 0x2003,
      0x2004, 0x2005, 0x2006, 0x2007, 0x2008, 0x2009, 0x200a, 0x2028, 0x2029, 0x202f, 0x205f,
      0x3000], isNameChar (Char.ofNat n) = false := by
    decide +kernel
  rw [hc]
  exact hall _ hm

section
variable {r : Reading} {s t : Text} {c : Char}

theorem Reading.step_neutral (hi : r.inCode) (hd : r.depth = 0) (hc : c ∉ readingMarks) :
    r.step c = {} := by
  obtain ⟨depth, mode⟩ := r
  cases hd
  simp only [readingMarks, List.mem_cons, List.not_mem_nil, or_false, not_or] at hc
  cases mode
  case code => simp [step, stepCode, hc]
  case slash => simp [step, stepCode, hc]
  all_goals cases hi

theorem Reading.stops_neutral (hc : c ∉ readingMarks) (r : Reading) : r.stops c = false := by
  simp only [readingMarks, List.mem_cons, List.not_mem_nil, or_false, not_or] at hc
  simp [stops, hc]

theorem Reading.split_of_neutral (hs : Neutral s) : (split {} s).2 = [] ∧ s.foldl step {} = {} := by
  induction s with
  | nil => exact ⟨rfl, rfl⟩
  | cons c s ih =>
    obtain ⟨hc, hs⟩ := List.forall_mem_cons.mp hs
    rw [split, stops_neutral hc, List.foldl_cons, step_neutral rfl rfl hc]
    exact ih hs

theorem selfContained_of_neutral (h : Neutral s) : SelfContained s := by
  obtain ⟨hn, hf⟩ := Reading.split_of_neutral h
  rw [SelfContained, hf]
  exact ⟨hn, rfl, rfl⟩

theorem SelfContained.append (hs : SelfContained s) (hc : c ∉ readingMarks) (ht : SelfContained t) :
    SelfContained (s ++ c :: t) := by
  obtain ⟨hp, hi, hd⟩ := hs
  have hstep := Reading.step_neutral hi hd hc
  rw [SelfContained, Reading.split_append_of_nil hp, Reading.split, Reading.stops_neutral hc, hstep,
    List.foldl_append, List.foldl_cons, hstep]
  exact ht

theorem SelfContained.append_neutral (hs : SelfContained s) (ht : Neutral t) :
    SelfContained (s ++ t) := by
  cases t with
  | nil => rwa [List.append_nil]
  | cons c t =>
    obtain ⟨hc, ht⟩ := List.forall_mem_cons.mp ht
    exact hs.append hc (selfContained_of_neutral ht)

theorem selfContained_append_iff (hs : Neutral s) : SelfContained (s ++ t) ↔ SelfContained t := by
  obtain ⟨hn, hf⟩ := Reading.split_of_neutral hs
  rw [SelfContained, SelfContained, Reading.split_append_of_nil hn, List.foldl_append, hf]

theorem cutStatement_of_selfContained (hs : SelfContained s) (hc : c = ';' ∨ c = '{' ∨ c = '}')
    (next : Text) : cutStatement (s ++ c :: next) = .ok ⟨s, .ofChar c, c :: next⟩ := by
  obtain ⟨hp, hi, hd⟩ := hs
  rw [cutStatement, Reading.split_append_cons_iff.mpr ⟨hp, Reading.stops_iff.mpr ⟨hi, hd, hc⟩⟩]

end

/-! ### Closed texts -/

theorem dropBytes_zero (s : Text) : s.dropBytes 0 = s := by
  cases s <;> rfl

theorem closed_iff {t : Text} :
    statementEnd (t ++ [';']) 0 = .ok (t.byteLength, .semicolon) ↔ SelfContained t := by
  rw [statementEnd, dropBytes_zero, Nat.sub_self]
  constructor
  · intro h
    cases hc : cutStatement (t ++ [';']) with
    | error fault => simp [hc] at h
    | ok cut =>
      simp only [hc, Nat.zero_add, Except.ok.injEq, Prod.mk.injEq] at h
      obtain ⟨hl, ht⟩ := h
      have ha := cutStatement_append hc
      have hb := eq_of_byteLength_eq ha hl
      rw [hb, List.append_cancel_left_eq] at ha
      rw [cutStatement] at hc
      split at hc
      · next body c rest hs =>
        cases hc
        simp only at hb ha
        rw [hb, ha, Reading.split_append_cons_iff, Reading.stops_iff] at hs
        exact ⟨hs.1, hs.2.1, hs.2.2.1⟩
      · split at hc <;> cases hc
        cases ht
  · intro h
    simp only [cutStatement_of_selfContained h (Or.inl rfl), Nat.zero_add]
    rfl

theorem partText_iff {t : Text} : PartText t ↔ PlainValue t := by
  rw [PlainValue, ← closed_iff, ← and_assoc, ← trim_eq_self_iff]
  exact ⟨fun h => ⟨h.trimmed, h.closed⟩, fun h => ⟨h.1, h.2⟩⟩

/-! ### Statements that are read back -/

def StatementStart (s : Text) : Prop :=
  ∃ c d tail, s = c :: d :: tail ∧ isFiller c = false ∧ c ≠ '}' ∧ c ≠ '@' ∧ ¬ (c = '/' ∧ d = '*')

/-- A statement behind white space, cut by the first semicolon or brace behind it. -/
structure StatementText (before body : Text) : Prop where
  filler : before.all isFiller
  start : StatementStart body
  closed : SelfContained body

/-- The text behind a statement, if a semicolon of its own does not end it, closes its block. -/
def EndsStatement (semicolon : Bool) (next : Text) : Prop := semicolon ∨ next.head? = some '}'

section
variable {before body next : Text} {semicolon : Bool}

theorem nextSegment_of_filler (hb : before.all isFiller) {c : Char} (hc : isFiller c = false)
    (s : Text) : nextSegment (before ++ c :: s) = readSegment before (c :: s) := by
  obtain ⟨h1, h2⟩ := takeWhile_append_of_stop (p := isFiller) (s := before) (t := c :: s)
    (List.all_eq_true.mp hb) (fun d hd => by cases hd; exact hc)
  rw [nextSegment, takeFiller, h1, h2]

theorem StatementStart.append {s : Text} (h : StatementStart s) (t : Text) : StatementStart (s ++ t) := by
  obtain ⟨c, d, tail, rfl, hc⟩ := h
  exact ⟨c, d, tail ++ t, rfl, hc⟩

theorem nextSegment_of_start (hb : before.all isFiller) {s : Text} (h : StatementStart s) :
    nextSegment (before ++ s) = readStatement before s := by
  obtain ⟨c, d, tail, rfl, hf, hbrace, hat, hcomment⟩ := h
  have hc : ¬ (c = '/' ∧ (d :: tail).head? = some '*') := by
    rintro ⟨rfl, hd⟩
    cases hd
    exact hcomment ⟨rfl, rfl⟩
  rw [nextSegment_of_filler hb hf, readSegment, if_neg hbrace, if_neg hat, if_neg hc]

theorem cutStatement_of_ends (hs : SelfContained body) (he : EndsStatement semicolon next) :
    ∃ terminator, (terminator = if semicolon then .semicolon else .closeBrace) ∧
      cutStatement (body ++ ((if semicolon then [';'] else []) ++ next)) =
        .ok ⟨body, terminator, (if semicolon then [';'] else []) ++ next⟩ := by
  cases semicolon with
  | true => exact ⟨_, rfl, cutStatement_of_selfContained hs (Or.inl rfl) next⟩
  | false =>
    obtain ⟨t, rfl⟩ := List.head?_eq_some_iff.mp (he.resolve_left Bool.false_ne_true)
    exact ⟨_, rfl, cutStatement_of_selfContained hs (Or.inr (Or.inr rfl)) t⟩

/-- A text in which no statement ends begins one, unless it begins an at-rule or a comment, or the
mark behind it makes a comment of it. -/
theorem statementStart_of_split {lead : Text} (hne : lead ≠ []) (hb : NoBlankStart lead)
    (hs : (Reading.split {} lead).2 = []) (hat : ¬ ['@'] <+: lead) (hcomment : ¬ ['/', '*'] <+: lead)
    {c : Char} (hc : c ≠ '*') (rest : Text) : StatementStart (lead ++ c :: rest) := by
  obtain ⟨d, tail, rfl⟩ := List.exists_cons_of_ne_nil hne
  have hstop : ¬ (Reading.mk 0 .code).stops d := by
    intro hd
    rw [Reading.split, if_pos hd] at hs
    cases hs
  rw [Reading.stops_iff] at hstop
  simp only [Reading.inCode, beq_self_eq_true, Bool.true_or, true_and, not_or] at hstop
  have hf : isFiller d = false := by simp [isFiller, hb d rfl, hstop.1]
  have hd : d ≠ '@' := by
    rintro rfl
    exact hat (List.prefix_append ['@'] tail)
  cases tail with
  | nil => exact ⟨d, c, rest, rfl, hf, hstop.2.2, hd, fun h => hc h.2⟩
  | cons e tail =>
    refine ⟨d, e, tail ++ c :: rest, rfl, hf, hstop.2.2, hd, ?_⟩
    rintro ⟨rfl, rfl⟩
    exact hcomment (List.prefix_append ['/', '*'] tail)

theorem LeadText.start {lead : Text} (hl : LeadText lead) {c : Char} (hc : c ≠ '*') (rest : Text) :
    StatementStart (lead ++ c :: rest) := by
  obtain ⟨hs, -, hp, -, -⟩ := partText_iff.mp hl.toPartText
  exact statementStart_of_split hl.ne_nil hs hp hl.no_at hl.no_comment hc rest

theorem readsBack_of_declarationOf? (h : StatementText before body) {segment : Segment}
    (hd : declarationOf? before body semicolon = some segment) (he : EndsStatement semicolon next) :
    Placed.ReadsBack ⟨segment, next⟩ := by
  have hprint : segment.print ++ next =
      before ++ (body ++ ((if semicolon then [';'] else []) ++ next)) := by
    rw [declarationOf?_print hd]
    simp
  obtain ⟨terminator, ht, hcut⟩ := cutStatement_of_ends h.closed he
  rw [Placed.ReadsBack, hprint, nextSegment_of_start h.filler (h.start.append _), readStatement, hcut]
  subst ht
  cases semicolon <;> simp [readDeclaration, hd]

def atRuleOf (before name tail : Text) (semicolon : Bool) : Segment :=
  .leaf (.atRule name (padding tail).body) { atRuleLayout before tail with semicolon }

theorem print_atRuleOf (before name tail : Text) (semicolon : Bool) :
    (atRuleOf before name tail semicolon).print =
      before ++ '@' :: (name ++ (tail ++ if semicolon then [';'] else [])) := by
  obtain ⟨hbefore, hparts⟩ := atRuleLayout_print before tail
  conv => rhs; rw [← hparts]
  simp [atRuleOf, Segment.print, Leaf.print, Layout.terminator, hbefore]

theorem readsBack_atRuleOf (hb : before.all isFiller) {name tail : Text} (hn : name ≠ [])
    (hc : ∀ c ∈ name, isNameChar c) (hs : SelfContained tail)
    (ht : ∀ c, tail.head? = some c → isNameChar c = false) (he : EndsStatement semicolon next) :
    Placed.ReadsBack ⟨atRuleOf before name tail semicolon, next⟩ := by
  obtain ⟨terminator, hterm, hcut⟩ := cutStatement_of_ends hs he
  have hbehind : ∀ c, ((if semicolon then [';'] else []) ++ next).head? = some c →
      isNameChar c = false := by
    intro c hh
    cases semicolon with
    | true => cases hh; rfl
    | false =>
      rw [show c = '}' from Option.some.inj (hh.symm.trans (he.resolve_left Bool.false_ne_true))]
      rfl
  obtain ⟨h1, h2⟩ := takeWhile_append_of_stop (p := isNameChar) (s := name)
    (t := tail ++ ((if semicolon then [';'] else []) ++ next)) hc (by
      intro c hh
      cases tail with
      | nil => exact hbehind c hh
      | cons d tail => exact ht c hh)
  have hprint : (atRuleOf before name tail semicolon).print ++ next =
      before ++ '@' :: (name ++ (tail ++ ((if semicolon then [';'] else []) ++ next))) := by
    rw [print_atRuleOf]
    simp
  have hat : ∀ s, readSegment before ('@' :: s) = readAtRule before ('@' :: s) := fun s => rfl
  rw [Placed.ReadsBack, hprint, nextSegment_of_filler hb rfl, hat, readAtRule, takeAtKeyword?, h1, h2,
    if_neg (by rwa [List.isEmpty_iff])]
  simp only [hcut]
  subst hterm
  cases semicolon with
  | true => rfl
  | false =>
    have hl : ({ atRuleLayout before tail with semicolon := false } : Layout) =
        atRuleLayout before tail := by rw [← semicolon_atRuleLayout before tail]
    rw [atRuleOf, hl]
    rfl

end

/-! ### New nodes -/

section
variable {before : Text}

theorem ColonSearch.split?_congr {s : ColonSearch} {text left right : Text}
    (h : s.split? text = some (left, right)) (right' : Text) :
    s.split? (left ++ ':' :: right') = some (left, right') := by
  induction text generalizing s left with
  | nil => cases h
  | cons c text ih =>
    rw [split?] at h
    split at h
    · next hf =>
      cases h
      rw [finds, Bool.and_eq_true, beq_iff_eq, beq_iff_eq] at hf
      obtain ⟨rfl, rfl⟩ := hf
      rfl
    · next hf =>
      obtain ⟨parts, hp, he⟩ := Option.map_eq_some_iff.mp h
      cases he
      rw [List.cons_append, split?, if_neg hf, ih hp]
      rfl

theorem ColonSearch.split?_append_of_some {s : ColonSearch} {text left right : Text}
    (h : s.split? text = some (left, right)) (rest : Text) :
    s.split? (text ++ rest) = some (left, right ++ rest) := by
  rw [← split?_append h, List.append_assoc]
  exact split?_congr h (right ++ rest)

theorem splitAtColon?_congr {text left right : Text} (h : splitAtColon? text = some (left, right))
    (right' : Text) : splitAtColon? (left ++ ':' :: right') = some (left, right') :=
  ColonSearch.split?_congr h right'

theorem findColon?_eq_byteLength_iff {property : Text} :
    findColon? (property ++ [':']) = some property.byteLength ↔
      splitAtColon? (property ++ [':']) = some (property, []) := by
  rw [findColon?]
  constructor
  · intro h
    obtain ⟨⟨left, right⟩, hs, hl⟩ := Option.map_eq_some_iff.mp h
    have ha := ColonSearch.split?_append hs
    obtain rfl := eq_of_byteLength_eq ha hl
    cases List.append_cancel_left ha
    exact hs
  · intro h
    rw [h]
    rfl

theorem LeadText.propertyText {property : Text} (hp : LeadText property)
    (hc : splitAtColon? (property ++ [':']) = some (property, [])) : PropertyText property where
  trimmed := hp.trimmed
  ne_nil := hp.ne_nil
  no_at := hp.no_at
  no_comment := hp.no_comment
  closed := (partText_iff.mp hp.toPartText).2.2.append (by decide) ⟨rfl, rfl, rfl⟩
  colon := hc

theorem declarationOf?_closed {property value : Text} (hp : PropertyText property)
    (hv : PlainValue value) :
    declarationOf? before (property ++ ':' :: ' ' :: value) true =
      some (.leaf (.declaration property value) { Layout.declaration with before }) := by
  obtain ⟨-, hpe⟩ := trim_eq_self_iff.mp hp.trimmed
  obtain ⟨hvs, hve, -⟩ := hv
  have ht := trimEnd_eq_self hpe
  have hb : trailingBlanks property = [] := by
    have e := trimEnd_append property
    rw [ht] at e
    exact List.append_right_eq_self.mp e
  have hn : ¬ property.isEmpty := by
    rw [List.isEmpty_iff]
    exact hp.ne_nil
  have hpad : padding (' ' :: value) = ⟨[' '], value, []⟩ := by
    rw [padding_cons rfl, padding_eq_self hvs hve]
  rw [declarationOf?, splitAtColon?_congr hp.colon]
  simp only [ht, hb, hpad, if_neg hn]
  rfl

theorem readsBack_declaration (hb : before.all isFiller) {property value : Text}
    (hp : PropertyText property) (hv : PlainValue value) (next : Text) :
    Placed.ReadsBack ⟨.leaf (.declaration property value) { Layout.declaration with before }, next⟩ := by
  have hs : SelfContained (property ++ ':' :: ' ' :: value) := by
    have h := hp.closed.append (c := ' ') (by decide) hv.2.2
    rwa [List.append_assoc] at h
  have hn : (Reading.split {} property).2 = [] := Reading.split_of_append hp.closed.1
  have hstart := statementStart_of_split hp.ne_nil (trim_eq_self_iff.mp hp.trimmed).1 hn hp.no_at
    hp.no_comment (c := ':') (by decide) (' ' :: value)
  exact readsBack_of_declarationOf? ⟨hb, hstart, hs⟩ (declarationOf?_closed hp hv) (Or.inl rfl)

theorem readsBack_rule (hb : before.all isFiller) {selector : Text} (hs : LeadText selector)
    (next : Text) :
    Placed.ReadsBack ⟨.opening (.rule selector) { before, between := [' '] }, next⟩ := by
  have hprint : (Segment.opening (.rule selector) { before, between := [' '] }).print ++ next =
      before ++ (selector ++ ' ' :: '{' :: next) := by
    simp [Segment.print, Head.print]
  obtain ⟨-, he, hself⟩ := partText_iff.mp hs.toPartText
  have hself' : SelfContained (selector ++ [' ']) := hself.append (by decide) ⟨rfl, rfl, rfl⟩
  have hcut := cutStatement_of_selfContained hself' (Or.inr (Or.inl (Eq.refl '{'))) next
  rw [List.append_assoc, List.singleton_append] at hcut
  have ht : trimEnd (selector ++ [' ']) = selector := by
    rw [trimEnd, List.reverse_append, List.reverse_singleton, List.singleton_append,
      List.dropWhile_cons_of_pos rfl, ← trimEnd, trimEnd_eq_self he]
  have hbl : trailingBlanks (selector ++ [' ']) = [' '] := by
    have e := trimEnd_append (selector ++ [' '])
    rw [ht] at e
    exact List.append_cancel_left e
  rw [Placed.ReadsBack, hprint, nextSegment_of_start hb (hs.start (by decide) _), readStatement, hcut]
  simp only [Terminator.ofChar, ht, hbl, List.tail_cons]
  rfl

theorem readsBack_atRule (hb : before.all isFiller) {name params : Text} (hn : name ≠ [])
    (hc : ∀ c ∈ name, isNameChar c) (hp : PartText params) (hne : params ≠ []) (next : Text) :
    Placed.ReadsBack ⟨.leaf (.atRule name params) { Layout.atRule with before }, next⟩ := by
  obtain ⟨hs, he, hself⟩ := partText_iff.mp hp
  have hpad : padding (' ' :: params) = ⟨[' '], params, []⟩ := by
    rw [padding_cons rfl, padding_eq_self hs he]
  have hl : atRuleOf before name (' ' :: params) true =
      .leaf (.atRule name params) { Layout.atRule with before } := by
    rw [atRuleOf, atRuleLayout, hpad, if_neg (by rwa [List.isEmpty_iff])]
    rfl
  rw [← hl]
  exact readsBack_atRuleOf hb hn hc (SelfContained.append (s := []) ⟨rfl, rfl, rfl⟩ (by decide) hself)
    (by rintro _ ⟨⟩; rfl) (Or.inl rfl)

end

/-! ### What is read stands for itself -/

theorem selfContained_of_cutStatement {s : Text} {cut : StatementCut} (h : cutStatement s = .ok cut)
    (ht : cut.terminator ≠ .endOfText) : SelfContained cut.body := by
  rw [cutStatement] at h
  split at h
  · next body c rest hs =>
    cases h
    have ha := Reading.split_append {} s
    rw [hs] at ha
    rw [← ha, Reading.split_append_cons_iff, Reading.stops_iff] at hs
    exact ⟨hs.1, hs.2.1, hs.2.2.1⟩
  · split at h <;> cases h
    exact absurd rfl ht

theorem selfContained_of_opening {s rest selector : Text} {layout : Layout}
    (h : nextSegment s = .segment (.opening (.rule selector) layout) rest) :
    SelfContained (selector ++ layout.between) := by
  rw [nextSegment] at h
  generalize (takeFiller s).1 = before, (takeFiller s).2 = tail at h
  cases tail with
  | nil => cases h
  | cons c tail =>
    rw [readSegment] at h
    split at h
    · cases h
    · split at h
      · rw [readAtRule] at h
        split at h
        · cases h
        · split at h
          · cases h
          · simp only at h
            split at h <;> cases h
      · split at h
        · rw [readComment] at h
          split at h <;> cases h
        · rw [readStatement] at h
          split at h
          · cases h
          · next cut hc =>
            split at h
            · next ht =>
              cases h
              rw [trimEnd_append]
              exact selfContained_of_cutStatement hc (by rw [ht]; decide)
            all_goals
              have hd := (readDeclaration_eq h).2
              rw [declarationOf?] at hd
              split at hd
              · cases hd
              · split at hd <;> cases hd

end StyleValues
