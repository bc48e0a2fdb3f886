import StyleValues.Proofs.Sheet.RoundTrip
import StyleValues.Proofs.Text.Cutting

/-!
# Reading is local

A segment that ends by itself is read without a look at what follows it; of
what follows any other segment only the first character matters. So a segment
that was read once is read again wherever its text is put
(`nextSegment_congr`).
-/

set_option autoImplicit false

namespace StyleValues

def Segment.ends : Segment → Bool
  | .leaf (.comment _) _ => true
  | .leaf _ layout => layout.semicolon
  | .opening _ _ => true
  | .closing _ => true

section
variable {r : Reading} {s t : Text} {c : Char}

theorem Reading.split_append_of_nil (h : (r.split s).2 = []) (t : Text) :
    r.split (s ++ t) = (s ++ ((s.foldl step r).split t).1, ((s.foldl step r).split t).2) := by
  induction s generalizing r with
  | nil => rfl
  | cons c s ih =>
    rw [split] at h
    split at h
    · cases h
    · next hc =>
      rw [List.cons_append, split, if_neg hc, ih h]
      rfl

theorem Reading.split_of_append (h : (r.split (s ++ t)).2 = []) : (r.split s).2 = [] := by
  induction s generalizing r with
  | nil => rfl
  | cons c s ih =>
    rw [List.cons_append, split] at h
    rw [split]
    split at h
    · cases h
    · next hc =>
      rw [if_neg hc]
      exact ih h

/-- A text is split right behind its first part if nothing ends the statement before. -/
theorem Reading.split_append_cons_iff :
    r.split (s ++ c :: t) = (s, c :: t) ↔ (r.split s).2 = [] ∧ (s.foldl step r).stops c := by
  induction s generalizing r with
  | nil =>
    rw [List.nil_append, split]
    by_cases hc : r.stops c <;> simp [hc, split]
  | cons d s ih =>
    rw [List.cons_append, split, split]
    by_cases hd : r.stops d
    · simp [hd]
    · have ih := ih (r := r.step d)
      simp only [hd, Bool.false_eq_true, if_false, List.foldl_cons, ← ih, Prod.ext_iff]
      simp

theorem Reading.stops_iff : r.stops c ↔
    r.inCode ∧ r.depth = 0 ∧ (c = ';' ∨ c = '{' ∨ c = '}') := by
  simp [stops, and_assoc, or_assoc]

end

theorem Reading.split_congr {r : Reading} {s body rest rest' : Text} (h : r.split s = (body, rest))
    (hr : rest'.head? = rest.head?) : r.split (body ++ rest') = (body, rest') := by
  induction s generalizing r body with
  | nil =>
    cases h
    rw [List.head?_eq_none_iff.mp hr]
    rfl
  | cons c s ih =>
    rw [split] at h
    split at h
    · next hc =>
      cases h
      obtain ⟨tail, rfl⟩ := List.head?_eq_some_iff.mp hr
      rw [List.nil_append, split, if_pos hc]
    · next hc =>
      cases h
      have ht := ih rfl
      rw [List.cons_append, split, if_neg hc, ht]

theorem cutStatement_congr {s rest' : Text} {cut : StatementCut} (h : cutStatement s = .ok cut)
    (hr : rest'.head? = cut.rest.head?) :
    cutStatement (cut.body ++ rest') = .ok { cut with rest := rest' } := by
  rw [cutStatement] at h
  split at h
  · next body c rest hs =>
    cases h
    obtain ⟨tail, rfl⟩ := List.head?_eq_some_iff.mp hr
    rw [cutStatement, Reading.split_congr hs hr]
  · next body hs =>
    split at h <;> cases h
    next hf =>
    rw [cutStatement, Reading.split_congr hs hr, List.head?_eq_none_iff.mp hr]
    simp only [hf]

theorem cutStatement_body {s : Text} {cut : StatementCut} (h : cutStatement s = .ok cut)
    (ht : cut.terminator ≠ .endOfText) :
    cutStatement cut.body = .ok ⟨cut.body, .endOfText, []⟩ := by
  rw [cutStatement] at h
  split at h
  · next body c rest hs =>
    cases h
    have ha := Reading.split_append {} s
    rw [hs] at ha
    rw [← ha, Reading.split_append_cons_iff, Reading.stops_iff] at hs
    obtain ⟨hn, hi, -⟩ := hs
    have hf : openFault? body = none := by
      rw [openFault?]
      rw [Reading.inCode] at hi
      cases hm : (body.foldl Reading.step {}).mode <;> simp_all
    have hb := Reading.split_append_of_nil hn []
    rw [List.append_nil, Reading.split, List.append_nil] at hb
    rw [cutStatement, hb]
    simp only [hf]
  · split at h <;> cases h
    exact absurd rfl ht

/-- A statement without an end of its own is cut again in front of nothing, or of what begins as
before. -/
theorem cutStatement_congr_of_unended {s rest' : Text} {cut : StatementCut}
    (h : cutStatement s = .ok cut) (ht : cut.terminator = .closeBrace ∨ cut.terminator = .endOfText)
    (hr : ∀ c ∈ rest'.head?, c ∈ cut.rest.head?) :
    ∃ terminator, (terminator = .closeBrace ∨ terminator = .endOfText) ∧
      cutStatement (cut.body ++ rest') = .ok ⟨cut.body, terminator, rest'⟩ := by
  by_cases he : rest'.head? = cut.rest.head?
  · exact ⟨cut.terminator, ht, cutStatement_congr h he⟩
  · cases rest' with
    | nil =>
      have hn : cut.terminator ≠ .endOfText := by
        intro hn
        have hx := cutStatement_rest h
        rw [hn] at hx
        exact he (by rw [hx])
      rw [List.append_nil]
      exact ⟨.endOfText, Or.inr rfl, cutStatement_body h hn⟩
    | cons c rest' => exact absurd (hr c rfl).symm he

theorem takeComment?_congr {s text rest : Text} (h : takeComment? s = some (text, rest))
    (rest' : Text) :
    takeComment? ('/' :: '*' :: (text ++ '*' :: '/' :: rest')) = some (text, rest') := by
  rw [takeComment?.eq_def] at h
  split at h
  · exact breakAt?_congr h rest'
  · cases h

theorem takeAtKeyword?_congr {s name tail tail' : Text} (h : takeAtKeyword? s = some (name, tail))
    (ht : ∀ c ∈ tail'.head?, c ∈ tail.head?) :
    takeAtKeyword? ('@' :: (name ++ tail')) = some (name, tail') := by
  rw [takeAtKeyword?.eq_def] at h
  split at h
  · split at h <;> cases h
    next hn =>
    obtain ⟨h1, h2⟩ := takeWhile_append_of_stop (p := isNameChar) (t := tail')
      (fun c hc => List.mem_takeWhile_imp hc) (fun c hc => stop_of_dropWhile (ht c hc))
    rw [takeAtKeyword?, h1, h2, if_neg hn]
  · cases h

section
variable {before s rest rest' : Text} {segment : Segment}

theorem readComment_congr (h : readComment before s = .segment segment rest) (rest' : Text) :
    ∃ core, core ++ rest = s ∧ ['/', '*'] <+: core ∧
      readComment before (core ++ rest') = .segment segment rest' := by
  rw [readComment] at h
  split at h
  · next text tail hc =>
    cases h
    refine ⟨'/' :: '*' :: (text ++ ['*', '/']), ?_, List.prefix_append _ _, ?_⟩
    · rw [← takeComment?_append hc]
      simp
    · have e : '/' :: '*' :: (text ++ ['*', '/']) ++ rest' =
          '/' :: '*' :: (text ++ '*' :: '/' :: rest') := by simp
      rw [e, readComment, takeComment?_congr hc]
  · cases h

theorem readAtRule_congr (h : readAtRule before s = .segment segment rest)
    (hr : segment.ends ∨ ∀ c ∈ rest'.head?, c ∈ rest.head?) :
    ∃ core, core ++ rest = s ∧ core ≠ [] ∧
      readAtRule before (core ++ rest') = .segment segment rest' := by
  rw [readAtRule] at h
  split at h
  · cases h
  · next name tail hn =>
    split at h
    · cases h
    · next cut hc =>
      have t := cutStatement_rest hc
      have e := cutStatement_append hc
      have l : ∀ params, (Segment.leaf (.atRule name params) (atRuleLayout before cut.body)).ends =
          false := fun _ => semicolon_atRuleLayout before cut.body
      -- Whatever ends the statement again, the name is cut as before.
      have hx : ∀ next : Text, (∀ c ∈ next.head?, c ∈ cut.rest.head?) →
          takeAtKeyword? ('@' :: (name ++ (cut.body ++ next))) = some (name, cut.body ++ next) := by
        intro next hd
        refine takeAtKeyword?_congr hn fun c hm => ?_
        rw [← e, List.head?_append]
        rw [List.head?_append] at hm
        cases hb : cut.body.head? with
        | none => rw [hb] at hm; exact hd c hm
        | some d => rw [hb] at hm; exact hm
      rw [← takeAtKeyword?_append hn, ← e]
      simp only at h
      split at h <;> cases h <;> rename_i ht <;> rw [ht] at t <;> simp only at t
      -- A brace that opens and a semicolon belong to the segment; all else is only looked at.
      · obtain ⟨after, ha⟩ := List.head?_eq_some_iff.mp t
        have hh : ('{' :: rest').head? = cut.rest.head? := by rw [ha]; rfl
        have h1 := hx _ fun c hm => hh ▸ hm
        have h2 := cutStatement_congr hc hh
        refine ⟨'@' :: (name ++ (cut.body ++ ['{'])), by simp [ha], List.cons_ne_nil _ _, ?_⟩
        have ec : '@' :: (name ++ (cut.body ++ ['{'])) ++ rest' =
            '@' :: (name ++ (cut.body ++ '{' :: rest')) := by simp
        rw [ec, readAtRule, h1]
        simp only [h2, ht, List.tail_cons]
      · obtain ⟨after, ha⟩ := List.head?_eq_some_iff.mp t
        have hh : (';' :: rest').head? = cut.rest.head? := by rw [ha]; rfl
        have h1 := hx _ fun c hm => hh ▸ hm
        have h2 := cutStatement_congr hc hh
        refine ⟨'@' :: (name ++ (cut.body ++ [';'])), by simp [ha], List.cons_ne_nil _ _, ?_⟩
        have ec : '@' :: (name ++ (cut.body ++ [';'])) ++ rest' =
            '@' :: (name ++ (cut.body ++ ';' :: rest')) := by simp
        rw [ec, readAtRule, h1]
        simp only [h2, ht, List.tail_cons]
      all_goals
        have hn := hr.resolve_left (by rw [l]; exact Bool.false_ne_true)
        obtain ⟨terminator, hterm, h2⟩ := cutStatement_congr_of_unended hc (by simp [ht]) hn
        refine ⟨'@' :: (name ++ cut.body), by simp, List.cons_ne_nil _ _, ?_⟩
        have ec : '@' :: (name ++ cut.body) ++ rest' = '@' :: (name ++ (cut.body ++ rest')) := by simp
        rw [ec, readAtRule, hx rest' hn]
        rcases hterm with rfl | rfl <;> simp only [h2]

theorem declarationOf?_ends {body : Text} {semicolon : Bool}
    (h : declarationOf? before body semicolon = some segment) : segment.ends = semicolon := by
  rw [declarationOf?] at h
  split at h
  · cases h
  · split at h <;> cases h
    rfl

theorem declarationOf?_length {body : Text} {semicolon : Bool}
    (h : declarationOf? before body semicolon = some segment) : 2 ≤ body.length := by
  rw [declarationOf?] at h
  split at h
  · cases h
  · next left right hc =>
    rw [← ColonSearch.split?_append hc]
    cases left with
    | nil => simp [Text.trimEnd] at h
    | cons d left =>
      rw [List.length_append, List.length_cons, List.length_cons]
      omega

theorem readDeclaration_eq {body : Text} {semicolon : Bool}
    (h : readDeclaration before body semicolon rest' = .segment segment rest) :
    rest = rest' ∧ declarationOf? before body semicolon = some segment := by
  rw [readDeclaration] at h
  split at h
  · next hd => cases h; exact ⟨rfl, hd⟩
  · cases h

theorem readStatement_congr (h : readStatement before s = .segment segment rest)
    (hr : segment.ends ∨ ∀ c ∈ rest'.head?, c ∈ rest.head?) :
    ∃ core, core ++ rest = s ∧ core ≠ [] ∧ core ≠ ['/'] ∧
      readStatement before (core ++ rest') = .segment segment rest' := by
  rw [readStatement] at h
  split at h
  · cases h
  · next cut hc =>
    have t := cutStatement_rest hc
    have e := cutStatement_append hc
    rw [← e]
    split at h <;> rename_i ht <;> rw [ht] at t <;> simp only at t
    · cases h
      obtain ⟨after, ha⟩ := List.head?_eq_some_iff.mp t
      have hh : ('{' :: rest').head? = cut.rest.head? := by rw [ha]; rfl
      have h2 := cutStatement_congr hc hh
      refine ⟨cut.body ++ ['{'], by simp [ha], by simp, ?_, ?_⟩
      · intro hx
        have hl := congrArg List.getLast? hx
        rw [List.getLast?_concat] at hl
        exact absurd (Option.some.inj hl) (by decide)
      · rw [List.append_assoc, List.singleton_append, readStatement, h2]
        simp only [ht, List.tail_cons]
    · obtain ⟨hrest, hd⟩ := readDeclaration_eq h
      obtain ⟨after, ha⟩ := List.head?_eq_some_iff.mp t
      have hh : (';' :: rest').head? = cut.rest.head? := by rw [ha]; rfl
      have h2 := cutStatement_congr hc hh
      refine ⟨cut.body ++ [';'], by simp [ha, hrest], by simp, ?_, ?_⟩
      · intro hx
        have hl := congrArg List.getLast? hx
        rw [List.getLast?_concat] at hl
        exact absurd (Option.some.inj hl) (by decide)
      · rw [List.append_assoc, List.singleton_append, readStatement, h2]
        simp only [ht, List.tail_cons, readDeclaration, hd]
    all_goals
      obtain ⟨hrest, hd⟩ := readDeclaration_eq h
      have hn : ∀ c ∈ rest'.head?, c ∈ cut.rest.head? := by
        rw [← hrest]
        exact hr.resolve_left (by rw [declarationOf?_ends hd]; exact Bool.false_ne_true)
      obtain ⟨terminator, hterm, h2⟩ := cutStatement_congr_of_unended hc (by simp [ht]) hn
      have hl := declarationOf?_length hd
      refine ⟨cut.body, by rw [hrest], ?_, ?_, ?_⟩
      · rintro hx
        rw [hx] at hl
        exact absurd hl (by decide)
      · rintro hx
        rw [hx] at hl
        exact absurd hl (by decide)
      rw [readStatement, h2]
      rcases hterm with rfl | rfl <;> simp only [readDeclaration, hd]

theorem readSegment_congr (h : readSegment before s = .segment segment rest)
    (hr : segment.ends ∨ ∀ c ∈ rest'.head?, c ∈ rest.head?) :
    ∃ core, core ++ rest = s ∧ core ≠ [] ∧
      readSegment before (core ++ rest') = .segment segment rest' := by
  cases s with
  | nil => cases h
  | cons c t =>
    rw [readSegment] at h
    split at h
    · next hc =>
      cases h
      refine ⟨['}'], by rw [hc]; rfl, List.cons_ne_nil _ _, ?_⟩
      rw [List.singleton_append, readSegment, if_pos rfl]
    · next hc =>
      split at h
      · next ha =>
        obtain ⟨core, e, hne, hx⟩ := readAtRule_congr h hr
        obtain ⟨d, core, rfl⟩ := List.exists_cons_of_ne_nil hne
        cases e
        refine ⟨_, rfl, hne, ?_⟩
        rw [List.cons_append, readSegment, if_neg hc, if_pos ha]
        exact hx
      · next ha =>
        split at h
        · next hm =>
          obtain ⟨core, e, ⟨core', rfl⟩, hx⟩ := readComment_congr h rest'
          cases e
          refine ⟨_, rfl, List.cons_ne_nil _ _, ?_⟩
          have hm' : '/' = '/' ∧ ('*' :: (core' ++ rest')).head? = some '*' := ⟨rfl, rfl⟩
          have hs : readSegment before ('/' :: '*' :: (core' ++ rest')) = .segment segment rest' := by
            rw [readSegment, if_neg hc, if_neg ha, if_pos hm']
            exact hx
          exact hs
        · next hm =>
          obtain ⟨core, e, hne, hns, hx⟩ := readStatement_congr h hr
          obtain ⟨d, core, rfl⟩ := List.exists_cons_of_ne_nil hne
          cases e
          refine ⟨_, rfl, hne, ?_⟩
          have hm' : ¬ (c = '/' ∧ (core ++ rest').head? = some '*') := by
            rintro ⟨rfl, hh⟩
            cases core with
            | nil => exact hns rfl
            | cons f core => exact hm ⟨rfl, hh⟩
          rw [List.cons_append, readSegment, if_neg hc, if_neg ha, if_neg hm']
          exact hx

/-- A segment is read the same whatever follows it. If it has no end of its own, nothing may
follow, or what begins with the same character. -/
theorem nextSegment_congr (h : nextSegment s = .segment segment rest)
    (hr : segment.ends ∨ ∀ c ∈ rest'.head?, c ∈ rest.head?) :
    nextSegment (segment.print ++ rest') = .segment segment rest' := by
  have e := takeFiller_append s
  obtain ⟨core, hc, hne, hx⟩ := readSegment_congr h hr
  have hp : segment.print = (takeFiller s).1 ++ core := by
    have hp := nextSegment_print h
    rw [← e, ← hc, ← List.append_assoc] at hp
    exact List.append_cancel_right hp
  obtain ⟨h1, h2⟩ := takeWhile_append_of_stop (p := isFiller) (s := (takeFiller s).1)
    (t := core ++ rest') (fun c hm => List.mem_takeWhile_imp hm) (by
      intro c hh
      apply stop_of_dropWhile (s := s)
      obtain ⟨d, core, rfl⟩ := List.exists_cons_of_ne_nil hne
      have hd : s.dropWhile isFiller = d :: core ++ rest := hc.symm
      rw [hd]
      exact hh)
  have ht : takeFiller (segment.print ++ rest') = ((takeFiller s).1, core ++ rest') := by
    rw [hp, List.append_assoc, takeFiller, h1, h2]
  rw [nextSegment, ht]
  exact hx

/-! ### What follows a segment without an end -/

theorem Reading.head?_split {r : Reading} {s body rest : Text} {c : Char}
    (h : r.split s = (body, c :: rest)) : c = ';' ∨ c = '{' ∨ c = '}' := by
  induction s generalizing r body with
  | nil => cases h
  | cons d s ih =>
    rw [split] at h
    split at h
    · next hd =>
      cases h
      rw [stops, Bool.and_eq_true] at hd
      simpa [or_assoc] using hd.2
    · exact ih (Prod.ext rfl (Prod.mk.inj h).2)

theorem cutStatement_closeBrace {cut : StatementCut} (h : cutStatement s = .ok cut)
    (ht : cut.terminator = .closeBrace) : cut.rest.head? = some '}' := by
  rw [cutStatement] at h
  split at h
  · next c rest hs =>
    cases h
    rcases Reading.head?_split hs with rfl | rfl | rfl
    · cases ht
    · cases ht
    · rfl
  · split at h <;> cases h
    cases ht

theorem head?_of_not_ends (h : nextSegment s = .segment segment rest)
    (he : segment.ends = false) : rest.head? = none ∨ rest.head? = some '}' := by
  rw [nextSegment] at h
  generalize (takeFiller s).1 = before at h
  cases hs : (takeFiller s).2 with
  | nil => rw [hs] at h; cases h
  | cons c tail =>
    rw [hs, readSegment] at h
    split at h
    · cases h; cases he
    · split at h
      · rw [readAtRule] at h
        split at h
        · cases h
        · split at h
          · cases h
          · next cut hc =>
            have t := cutStatement_rest hc
            simp only at h
            split at h <;> cases h <;> rename_i ht <;> rw [ht] at t
            · cases he
            · cases he
            · exact Or.inr (cutStatement_closeBrace hc ht)
            · exact Or.inl (List.head?_eq_none_iff.mpr t)
      · split at h
        · rw [readComment] at h
          split at h <;> cases h
          cases he
        · rw [readStatement] at h
          split at h
          · cases h
          · next cut hc =>
            have t := cutStatement_rest hc
            split at h <;> rename_i ht <;> rw [ht] at t
            · cases h; cases he
            all_goals obtain ⟨hr, hd⟩ := readDeclaration_eq h
            · rw [declarationOf?_ends hd] at he
              cases he
            · rw [hr]
              exact Or.inr (cutStatement_closeBrace hc ht)
            · rw [hr]
              exact Or.inl (List.head?_eq_none_iff.mpr t)

end

end StyleValues
