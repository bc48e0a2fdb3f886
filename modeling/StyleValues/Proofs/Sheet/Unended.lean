import StyleValues.Proofs.Sheet.ClosedTexts
import StyleValues.Proofs.Sheet.Shapes

/-!
# Statements without an end of their own

The last statement of a block may stand there without a semicolon. What it
becomes when something is put behind it depends on its kind. A declaration is
the same one with a semicolon, and white space behind it changes no value of
it. An at-rule takes whatever follows it as far as the next semicolon.
-/

set_option autoImplicit false

namespace StyleValues

open Text

section
variable {before body next : Text} {semicolon : Bool} {layout : Layout}

/-- A statement begins the same whatever stands behind its colon. -/
theorem StatementStart.congr (h : StatementStart body) {left right : Text}
    (hb : left ++ ':' :: right = body) (hn : left ≠ []) (right' : Text) :
    StatementStart (left ++ ':' :: right') := by
  obtain ⟨c, d, tail, rfl, hc⟩ := h
  match left, hn with
  | [_], _ =>
    cases hb
    exact ⟨_, _, right', rfl, hc⟩
  | _ :: _ :: left, _ =>
    cases hb
    exact ⟨_, _, left ++ ':' :: right', rfl, hc⟩

/-! ### Declarations -/

theorem declarationOf?_eq_some_iff {content : Leaf} :
    declarationOf? before body semicolon = some (.leaf content layout) ↔
      ∃ left right, splitAtColon? body = some (left, right) ∧ trimEnd left ≠ [] ∧
        content = .declaration (trimEnd left) (padding right).body ∧
          layout =
            { before
              between := trailingBlanks left ++ ':' :: (padding right).leading
              after := (padding right).trailing
              semicolon } := by
  rw [declarationOf?]
  cases splitAtColon? body with
  | none => simp
  | some parts =>
    obtain ⟨left, right⟩ := parts
    simp only [List.isEmpty_iff, Option.some.injEq, Prod.mk.injEq]
    constructor
    · intro h
      split at h <;> cases h
      next hn => exact ⟨left, right, ⟨rfl, rfl⟩, hn, rfl, rfl⟩
    · rintro ⟨_, _, ⟨rfl, rfl⟩, hn, rfl, rfl⟩
      rw [if_neg hn]

theorem semicolon_of_declarationOf? {content : Leaf}
    (h : declarationOf? before body semicolon = some (.leaf content layout)) :
    layout.semicolon = semicolon := by
  obtain ⟨-, -, -, -, -, rfl⟩ := declarationOf?_eq_some_iff.mp h
  rfl

/-! ### What a leaf was read from -/

section
variable {s rest : Text} {content : Leaf}

theorem leaf_of_readSegment (h : readSegment before s = .segment (.leaf content layout) rest) :
    (∃ text, content = .comment text) ∨ readAtRule before s = .segment (.leaf content layout) rest ∨
      (∃ c tail, s = c :: tail ∧ c ≠ '}' ∧ c ≠ '@' ∧ ¬ (c = '/' ∧ tail.head? = some '*')) ∧
        readStatement before s = .segment (.leaf content layout) rest := by
  cases s with
  | nil => cases h
  | cons c tail =>
    rw [readSegment] at h
    split at h
    · cases h
    · next hbrace =>
      split at h
      · exact Or.inr (Or.inl h)
      · next hat =>
        split at h
        · rw [readComment] at h
          split at h <;> cases h
          exact Or.inl ⟨_, rfl⟩
        · next hcomment => exact Or.inr (Or.inr ⟨⟨c, tail, rfl, hbrace, hat, hcomment⟩, h⟩)

theorem leaf_of_readAtRule (h : readAtRule before s = .segment (.leaf content layout) rest)
    (he : EndsStatement layout.semicolon rest) :
    ∃ name tail cut, takeAtKeyword? s = some (name, tail) ∧ cutStatement tail = .ok cut ∧
      cut.terminator ≠ .endOfText ∧ content = .atRule name (padding cut.body).body ∧
        layout.afterName = (atRuleLayout before cut.body).afterName ∧
          layout.between = (atRuleLayout before cut.body).between := by
  rw [readAtRule] at h
  split at h
  · cases h
  · next name tail hn =>
    split at h
    · cases h
    · next cut hc =>
      have ht := cutStatement_rest hc
      simp only at h
      split at h <;> cases h <;> rename_i hterm <;> rw [hterm] at ht
      · exact ⟨name, tail, cut, hn, hc, by rw [hterm]; decide, rfl, rfl, rfl⟩
      · exact ⟨name, tail, cut, hn, hc, by rw [hterm]; decide, rfl, rfl, rfl⟩
      · rw [EndsStatement, semicolon_atRuleLayout, show cut.rest = [] from ht] at he
        rcases he with he | he <;> cases he

theorem leaf_of_readStatement (h : readStatement before s = .segment (.leaf content layout) rest)
    (he : EndsStatement layout.semicolon rest) :
    ∃ cut, cutStatement s = .ok cut ∧ cut.terminator ≠ .endOfText ∧
      declarationOf? before cut.body layout.semicolon = some (.leaf content layout) := by
  rw [readStatement] at h
  split at h
  · cases h
  · next cut hc =>
    have ht := cutStatement_rest hc
    split at h <;> rename_i hterm <;> rw [hterm] at ht
    · cases h
    all_goals
      obtain ⟨rfl, hd⟩ := readDeclaration_eq h
      have hsemi := semicolon_of_declarationOf? hd
    · exact ⟨cut, hc, by rw [hterm]; decide, hsemi ▸ hd⟩
    · exact ⟨cut, hc, by rw [hterm]; decide, hsemi ▸ hd⟩
    · rw [EndsStatement, hsemi, show cut.rest = [] from ht] at he
      rcases he with he | he <;> cases he

theorem readSegment_of_readsBack {segment : Segment} (h : Placed.ReadsBack ⟨segment, next⟩) :
    segment.before.all isFiller ∧ ∃ text, (∀ c, text.head? = some c → isFiller c = false) ∧
      readSegment segment.before text = .segment segment next := by
  rw [Placed.ReadsBack] at h
  have hf := (readSegment_fresh h).1
  refine ⟨before_of_nextSegment h, (takeFiller (segment.print ++ next)).2, ?_, ?_⟩
  · exact fun c hc => stop_of_dropWhile hc
  · rw [hf]
    exact h

theorem statementText_of_readsBack {property value : Text}
    (h : Placed.ReadsBack ⟨.leaf (.declaration property value) layout, next⟩)
    (he : EndsStatement layout.semicolon next) :
    ∃ body, StatementText layout.before body ∧ declarationOf? layout.before body layout.semicolon =
      some (.leaf (.declaration property value) layout) := by
  obtain ⟨hb, text, hfirst, hread⟩ := readSegment_of_readsBack h
  rcases leaf_of_readSegment hread with ⟨_, hc⟩ | hr | ⟨⟨c, tail, ht, hbrace, hat, hcomment⟩, hr⟩
  · cases hc
  · obtain ⟨_, _, _, _, _, _, hc, _⟩ := leaf_of_readAtRule hr he
    cases hc
  · obtain ⟨cut, hc, hne, hd⟩ := leaf_of_readStatement hr he
    have ha := cutStatement_append hc
    have hl := declarationOf?_length hd
    refine ⟨cut.body, ⟨hb, ?_, selfContained_of_cutStatement hc hne⟩, hd⟩
    subst ht
    match hbody : cut.body, hl with
    | d :: e :: more, _ =>
      rw [hbody] at ha
      cases ha
      exact ⟨_, e, more, rfl, hfirst _ rfl, hbrace, hat, fun hm => hcomment ⟨hm.1, congrArg some hm.2⟩⟩

theorem atRuleText_of_readsBack {name params : Text}
    (h : Placed.ReadsBack ⟨.leaf (.atRule name params) layout, next⟩)
    (he : EndsStatement layout.semicolon next) :
    ∃ body, layout.before.all isFiller ∧ SelfContained body ∧ (∃ c ∈ body.head?, isNameChar c) ∧
      (Leaf.atRule name params).print layout = layout.before ++ '@' :: (body ++ layout.terminator) := by
  obtain ⟨hb, text, hfirst, hread⟩ := readSegment_of_readsBack h
  rcases leaf_of_readSegment hread with ⟨_, hc⟩ | hr | ⟨_, hr⟩
  · cases hc
  · obtain ⟨_, tail, cut, hn, hc, hne, heq, hafter, hbetween⟩ := leaf_of_readAtRule hr he
    cases heq
    obtain ⟨hname, hchars⟩ := name_of_takeAtKeyword? hn
    have hs := (selfContained_append_iff (neutral_of_names hchars)).mpr
      (selfContained_of_cutStatement hc hne)
    refine ⟨name ++ cut.body, hb, hs, ?_, ?_⟩
    · obtain ⟨c, more, rfl⟩ := List.exists_cons_of_ne_nil hname
      exact ⟨c, rfl, hchars c (List.mem_cons_self ..)⟩
    · have hp : layout.afterName ++ ((padding cut.body).body ++ layout.between) = cut.body := by
        rw [hafter, hbetween]
        exact (atRuleLayout_print layout.before cut.body).2
      conv => rhs; rw [← hp]
      simp [Leaf.print]
  · obtain ⟨_, _, _, hd⟩ := leaf_of_readStatement hr he
    obtain ⟨_, _, _, _, hc, _⟩ := declarationOf?_eq_some_iff.mp hd
    cases hc

end

/-! ### What follows takes part -/

theorem exists_atRule (hb : before.all isFiller) (hs : SelfContained body)
    (hc : ∃ c ∈ body.head?, isNameChar c) (semicolon : Bool) :
    ∃ name params layout, layout.semicolon = semicolon ∧
      (Leaf.atRule name params).print layout =
          before ++ '@' :: (body ++ if semicolon then [';'] else []) ∧
        ∀ next, EndsStatement semicolon next →
          Placed.ReadsBack ⟨.leaf (.atRule name params) layout, next⟩ := by
  obtain ⟨c, hh, hc⟩ := hc
  obtain ⟨more, rfl⟩ := List.head?_eq_some_iff.mp hh
  have hchars : ∀ d ∈ (c :: more).takeWhile isNameChar, isNameChar d :=
    fun d hd => List.mem_takeWhile_imp hd
  have hn : (c :: more).takeWhile isNameChar ≠ [] := by
    rw [List.takeWhile_cons_of_pos hc]
    exact List.cons_ne_nil _ _
  have hcut := List.takeWhile_append_dropWhile (p := isNameChar) (l := c :: more)
  have htail : SelfContained ((c :: more).dropWhile isNameChar) := by
    rwa [← hcut, selfContained_append_iff (neutral_of_names hchars)] at hs
  refine ⟨_, _, _, rfl, ?_, fun next he =>
    readsBack_atRuleOf hb hn hchars htail (fun d hd => stop_of_dropWhile hd) he⟩
  have hp := print_atRuleOf before ((c :: more).takeWhile isNameChar)
    ((c :: more).dropWhile isNameChar) semicolon
  rw [← List.append_assoc, hcut] at hp
  exact hp

/-- An at-rule without an end takes part of what follows it. -/
theorem exists_atRule_behind {name params : Text} (he : EndsStatement layout.semicolon next)
    (h : Placed.ReadsBack ⟨.leaf (.atRule name params) layout, next⟩) (hl : layout.semicolon = false)
    {t : Text} (ht : Neutral t) (semicolon : Bool) :
    ∃ name' params' layout', layout'.semicolon = semicolon ∧
      (Leaf.atRule name' params').print layout' =
          (Leaf.atRule name params).print layout ++ (t ++ if semicolon then [';'] else []) ∧
        ∀ next', EndsStatement semicolon next' →
          Placed.ReadsBack ⟨.leaf (.atRule name' params') layout', next'⟩ := by
  obtain ⟨body, hb, hs, ⟨c, hc, hname⟩, hp⟩ := atRuleText_of_readsBack h he
  have hhead : ∃ d ∈ (body ++ t).head?, isNameChar d :=
    ⟨c, by rw [List.head?_append, Option.mem_def.mp hc, Option.some_or, Option.mem_some_iff], hname⟩
  obtain ⟨name', params', layout', hl', hp', hr⟩ :=
    exists_atRule hb (hs.append_neutral ht) hhead semicolon
  refine ⟨name', params', layout', hl', ?_, hr⟩
  rw [hp, hp', Layout.terminator, hl]
  simp

section
variable {property value : Text} (he : EndsStatement layout.semicolon next)
  (h : Placed.ReadsBack ⟨.leaf (.declaration property value) layout, next⟩)
include he h

theorem readsBack_terminated (next' : Text) :
    Placed.ReadsBack ⟨.leaf (.declaration property value) { layout with semicolon := true }, next'⟩ := by
  obtain ⟨body, hb, hd⟩ := statementText_of_readsBack h he
  obtain ⟨left, right, hs, hn, hc, hl⟩ := declarationOf?_eq_some_iff.mp hd
  have hd' : declarationOf? layout.before body true =
      some (.leaf (.declaration property value) { layout with semicolon := true }) :=
    declarationOf?_eq_some_iff.mpr ⟨left, right, hs, hn, hc, by rw [hl]⟩
  exact readsBack_of_declarationOf? hb hd' (Or.inl rfl)

theorem exists_spaced {space : Text} (hs : Blank space) (hl : layout.semicolon = false) :
    ∃ layout', (Leaf.declaration property value).print layout' =
        (Leaf.declaration property value).print layout ++ space ∧
      ∀ next', next'.head? = some '}' →
        Placed.ReadsBack ⟨.leaf (.declaration property value) layout', next'⟩ := by
  obtain ⟨body, hb, hd⟩ := statementText_of_readsBack h he
  rw [hl] at hd
  obtain ⟨left, right, hsplit, hn, hc, -⟩ := declarationOf?_eq_some_iff.mp hd
  have htext : StatementText layout.before (body ++ space) :=
    ⟨hb.filler, hb.start.append space, hb.closed.append_neutral (neutral_of_blanks hs)⟩
  have hvalue : (padding (right ++ space)).body = (padding right).body := trim_append_blanks right hs
  obtain ⟨layout', hd'⟩ : ∃ layout', declarationOf? layout.before (body ++ space) false =
      some (.leaf (.declaration property value) layout') :=
    ⟨_, declarationOf?_eq_some_iff.mpr ⟨left, right ++ space,
      ColonSearch.split?_append_of_some hsplit space, hn, by rw [hvalue]; exact hc, rfl⟩⟩
  refine ⟨layout', ?_, fun next' hx => readsBack_of_declarationOf? htext hd' (Or.inr hx)⟩
  have hp := declarationOf?_print hd
  have hp' := declarationOf?_print hd'
  simp only [Bool.false_eq_true, if_false, List.append_nil] at hp hp'
  rw [← List.append_assoc, ← hp] at hp'
  exact hp'

end

end

end StyleValues
