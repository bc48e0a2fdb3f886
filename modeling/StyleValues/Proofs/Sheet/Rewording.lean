import StyleValues.Proofs.Sheet.Passing
import StyleValues.Proofs.Sheet.Unended

/-!
# Other values, selectors and parameters

A segment that is read back is read back with another text in its place, if
that text leads where the old one led and does not begin what the old one did
not: an at-rule, a comment, or a longer name of an at-rule.
-/

set_option autoImplicit false

namespace StyleValues

open Text

/-! ### What a segment is read from -/

namespace StatementCut

def behind (cut : StatementCut) : Text :=
  match cut.terminator with
  | .openBrace => cut.rest.tail
  | .semicolon => cut.rest.tail
  | .closeBrace => cut.rest
  | .endOfText => cut.rest

def statement? (before : Text) (cut : StatementCut) : Option Segment :=
  match cut.terminator with
  | .openBrace =>
    some (.opening (.rule (trimEnd cut.body)) { before, between := trailingBlanks cut.body })
  | .semicolon => declarationOf? before cut.body true
  | .closeBrace => declarationOf? before cut.body false
  | .endOfText => declarationOf? before cut.body false

/-- The segment that is read from such a text behind the name of an at-rule. -/
def atRule (before name : Text) (cut : StatementCut) : Segment :=
  match cut.terminator with
  | .openBrace => .opening (.atRule name (padding cut.body).body) (atRuleLayout before cut.body)
  | .semicolon =>
    .leaf (.atRule name (padding cut.body).body) { atRuleLayout before cut.body with semicolon := true }
  | .closeBrace => .leaf (.atRule name (padding cut.body).body) (atRuleLayout before cut.body)
  | .endOfText => .leaf (.atRule name (padding cut.body).body) (atRuleLayout before cut.body)

end StatementCut

section
variable {before s next : Text} {segment : Segment}

theorem readDeclaration_eq_segment_iff {body rest : Text} {semicolon : Bool} :
    readDeclaration before body semicolon rest = .segment segment next ↔
      declarationOf? before body semicolon = some segment ∧ next = rest := by
  rw [readDeclaration]
  cases declarationOf? before body semicolon <;> simp [eq_comm]

theorem readStatement_eq_segment_iff : readStatement before s = .segment segment next ↔
    ∃ cut, cutStatement s = .ok cut ∧ cut.statement? before = some segment ∧ next = cut.behind := by
  rw [readStatement]
  cases cutStatement s with
  | error fault => simp
  | ok cut =>
    obtain ⟨body, terminator, rest⟩ := cut
    cases terminator <;>
      simp [StatementCut.statement?, StatementCut.behind, readDeclaration_eq_segment_iff, eq_comm]

theorem readAtRule_eq_segment_iff : readAtRule before s = .segment segment next ↔
    ∃ name tail cut, takeAtKeyword? s = some (name, tail) ∧ cutStatement tail = .ok cut ∧
      cut.atRule before name = segment ∧ next = cut.behind := by
  rw [readAtRule]
  cases takeAtKeyword? s with
  | none => simp
  | some parts =>
    obtain ⟨name, tail⟩ := parts
    cases hc : cutStatement tail with
    | error fault => simp [hc]
    | ok cut =>
      obtain ⟨body, terminator, rest⟩ := cut
      cases terminator <;> simp [hc, StatementCut.atRule, StatementCut.behind, eq_comm]

theorem readsBack_of_readSegment (hb : before.all isFiller)
    (hf : ∀ c, s.head? = some c → isFiller c = false)
    (h : readSegment before s = .segment segment next) : Placed.ReadsBack ⟨segment, next⟩ := by
  obtain ⟨h1, h2⟩ := takeWhile_append_of_stop (List.all_eq_true.mp hb) hf
  rw [Placed.ReadsBack, readSegment_print h, nextSegment, takeFiller, h1, h2]
  exact h

end

/-! ### Declarations and rules -/

def Segment.IsStatement : Segment → Prop
  | .leaf (.declaration _ _) _ => True
  | .opening (.rule _) _ => True
  | _ => False

section
variable {before next : Text} {segment : Segment} {cut : StatementCut}

theorem not_isStatement_atRule (name : Text) : ¬ (cut.atRule before name).IsStatement := by
  obtain ⟨body, terminator, rest⟩ := cut
  cases terminator <;> exact id

theorem isStatement_of_statement? (h : cut.statement? before = some segment) : segment.IsStatement := by
  have hd : ∀ {body : Text} {semicolon : Bool}, declarationOf? before body semicolon = some segment →
      segment.IsStatement := by
    intro body semicolon h
    rw [declarationOf?] at h
    split at h
    · cases h
    · split at h <;> cases h
      trivial
  obtain ⟨body, terminator, rest⟩ := cut
  cases terminator
  case openBrace => cases h; trivial
  all_goals exact hd h

/-- What is behind a statement that is read back, and how it begins. -/
theorem exists_statementCut (h : Placed.ReadsBack ⟨segment, next⟩) (hs : segment.IsStatement) :
    segment.before.all isFiller ∧ ∃ cut : StatementCut,
      cutStatement (cut.body ++ cut.rest) = .ok cut ∧ cut.statement? segment.before = some segment ∧
        next = cut.behind ∧ (∀ c, cut.body.head? = some c → isFiller c = false) ∧
          (2 ≤ cut.body.length → StatementStart cut.body) ∧
            ¬ ['@'] <+: cut.body ∧ ¬ ['/', '*'] <+: cut.body := by
  obtain ⟨hb, text, hfirst, hread⟩ := readSegment_of_readsBack h
  refine ⟨hb, ?_⟩
  generalize segment.before = before at hread
  cases text with
  | nil => cases hread
  | cons c tail =>
    rw [readSegment] at hread
    split at hread
    · cases hread
      exact hs.elim
    · next hbrace =>
      split at hread
      · obtain ⟨name, -, cut, -, -, rfl, -⟩ := readAtRule_eq_segment_iff.mp hread
        exact (not_isStatement_atRule name hs).elim
      · next hat =>
        split at hread
        · rw [readComment] at hread
          split at hread <;> cases hread
          exact hs.elim
        · next hcomment =>
          obtain ⟨cut, hc, hseg, hnext⟩ := readStatement_eq_segment_iff.mp hread
          have ha := cutStatement_append hc
          refine ⟨cut, by rw [ha]; exact hc, hseg, hnext, ?_, fun hl => ?_, ?_, ?_⟩
          · intro d hd
            rw [← ha, List.head?_append, hd] at hfirst
            exact hfirst d rfl
          rotate_left
          · rintro ⟨more, hm⟩
            rw [← hm] at ha
            exact hat (List.cons.inj ha).1.symm
          · rintro ⟨more, hm⟩
            rw [← hm] at ha
            obtain ⟨hc, ht⟩ := List.cons.inj ha
            exact hcomment ⟨hc.symm, by rw [← ht]; rfl⟩
          obtain ⟨d, more, hbody⟩ :=
            List.exists_cons_of_ne_nil (List.ne_nil_of_length_pos (Nat.lt_of_lt_of_le Nat.two_pos hl))
          rw [hbody, List.length_cons] at hl
          obtain ⟨e, more, rfl⟩ :=
            List.exists_cons_of_ne_nil (List.ne_nil_of_length_pos (Nat.le_of_succ_le_succ hl))
          rw [hbody] at ha ⊢
          cases ha
          exact ⟨_, e, more, rfl, hfirst _ rfl, hbrace, hat,
            fun hm => hcomment ⟨hm.1, congrArg some hm.2⟩⟩

theorem readsBack_of_statement? {body rest : Text} {terminator : Terminator}
    (hb : before.all isFiller)
    (hc : cutStatement (body ++ rest) = .ok ⟨body, terminator, rest⟩)
    (hs : StatementStart (body ++ rest))
    (hseg : StatementCut.statement? before ⟨body, terminator, rest⟩ = some segment) :
    Placed.ReadsBack ⟨segment, StatementCut.behind ⟨body, terminator, rest⟩⟩ := by
  have hn := nextSegment_of_start hb hs
  rw [readStatement_eq_segment_iff.mpr ⟨_, hc, hseg, rfl⟩] at hn
  rw [Placed.ReadsBack, nextSegment_print hn]
  exact hn

/-- What a declaration is read from. With another value in its place, which ends where the old one
ended, the declaration is read back. -/
theorem exists_valueCut {property value : Text} {layout : Layout}
    (h : Placed.ReadsBack ⟨.leaf (.declaration property value) layout, next⟩) :
    ∃ (gap lead trailing : Text) (terminator : Terminator) (rest : Text),
      layout.between = gap ++ ':' :: lead ∧ Blank gap ∧ Blank lead ∧ Blank trailing ∧
        trim value = value ∧
        cutStatement (property ++ (layout.between ++ (value ++ trailing)) ++ rest) =
          .ok ⟨property ++ (layout.between ++ (value ++ trailing)), terminator, rest⟩ ∧
        ∀ value', value' ≠ [] → trim value' = value' →
          cutStatement (property ++ (layout.between ++ (value' ++ trailing)) ++ rest) =
            .ok ⟨property ++ (layout.between ++ (value' ++ trailing)), terminator, rest⟩ →
          Placed.ReadsBack ⟨.leaf (.declaration property value') layout, next⟩ := by
  obtain ⟨hb, ⟨body, terminator, rest⟩, hc, hseg, rfl, -, hstart, -⟩ := exists_statementCut h trivial
  obtain ⟨semicolon, hd, hsemi⟩ : ∃ semicolon,
      declarationOf? layout.before body semicolon =
        some (.leaf (.declaration property value) layout) ∧
      ∀ body, StatementCut.statement? layout.before ⟨body, terminator, rest⟩ =
        declarationOf? layout.before body semicolon := by
    cases terminator
    case openBrace => cases hseg
    all_goals exact ⟨_, hseg, fun _ => rfl⟩
  have hlength := declarationOf?_length hd
  obtain ⟨left, right, hs, hn, hcontent, hl⟩ := declarationOf?_eq_some_iff.mp hd
  obtain ⟨rfl, rfl⟩ := Leaf.declaration.inj hcontent
  have hbetween : layout.between = trailingBlanks left ++ ':' :: (padding right).leading := by rw [hl]
  have hfront : ∀ t, trimEnd left ++ (layout.between ++ t) =
      left ++ ':' :: ((padding right).leading ++ t) := by
    intro t
    conv => rhs; rw [← trimEnd_append left]
    simp [hbetween]
  refine ⟨trailingBlanks left, (padding right).leading, (padding right).trailing, terminator, rest,
    hbetween, blank_trailingBlanks left, blank_takeWhile right, blank_trailingBlanks _,
    trim_trim right, ?_, ?_⟩
  · rw [hfront, padding_append, ColonSearch.split?_append hs]
    exact hc
  · intro value' hne ht hcut
    obtain ⟨hfirst, hlast⟩ := trim_eq_self_iff.mp ht
    have hpad : padding ((padding right).leading ++ (value' ++ (padding right).trailing)) =
        ⟨(padding right).leading, value', (padding right).trailing⟩ :=
      padding_around hfirst hlast hne (blank_takeWhile right) (blank_trailingBlanks _)
    have hleft : left ≠ [] := by
      rintro rfl
      exact hn rfl
    have hstart := (hstart hlength).congr (ColonSearch.split?_append hs) hleft
    rw [hfront] at hcut
    have hread := readsBack_of_statement? hb hcut ((hstart _).append rest)
      ((hsemi _).trans (declarationOf?_eq_some_iff.mpr
        ⟨left, _, splitAtColon?_congr hs _, hn, rfl, rfl⟩))
    rw [hpad, ← hl] at hread
    exact hread

/-- A declaration is read back with another value that leads where the old one led. -/
theorem readsBack_declaration_reworded {property value value' : Text} {layout : Layout}
    (h : Placed.ReadsBack ⟨.leaf (.declaration property value) layout, next⟩)
    (hw : ((property ++ layout.between).foldl Reading.step {}).Rewords value value') :
    Placed.ReadsBack ⟨.leaf (.declaration property value') layout, next⟩ := by
  by_cases hv : value = []
  · rwa [hw.1 hv, ← hv]
  obtain ⟨_, _, trailing, terminator, rest, -, -, -, htrail, ht, hc, hread⟩ := exists_valueCut h
  rw [← List.append_assoc property] at hc
  obtain ⟨hfit, hcut⟩ := cutStatement_of_rewords hc hv ht htrail hw
  rw [List.append_assoc property] at hcut
  exact hread value' hfit.ne_nil hfit.trimmed hcut

theorem readsBack_withValue {property value value' : Text} {layout : Layout}
    (h : Placed.ReadsBack ⟨.leaf (.declaration property value) layout, next⟩)
    (hp : SelfContained (property ++ [':'])) (hv : PlainValue value') (hne : value' ≠ []) :
    Placed.ReadsBack ⟨.leaf (.declaration property value') layout, next⟩ := by
  obtain ⟨gap, lead, trailing, terminator, rest, hl, hgap, hlead, htrail, -, hc, hread⟩ :=
    exists_valueCut h
  obtain ⟨hfirst, hlast, hclosed⟩ := hv
  refine hread value' hne (trim_eq_self hfirst hlast) ?_
  have hself : SelfContained (property ++ (layout.between ++ (value' ++ trailing))) := by
    have hcolon : (':' :: lead) ≠ [] := List.cons_ne_nil _ _
    have hbetween : Neutral layout.between := by
      rw [hl]
      exact (neutral_of_blanks hgap).append (.cons (by decide) (neutral_of_blanks hlead))
    rw [← List.append_assoc]
    refine (hclosed.append_neutral (neutral_of_blanks htrail)).behind
      (passes_of_colon hp hbetween ?_)
    rw [hl]
    exact List.append_ne_nil_of_right_ne_nil gap hcolon
  obtain ⟨-, hend⟩ := cutStatement_append_eq_iff.mp hc
  refine cutStatement_append_eq_iff.mpr ⟨hself.1, hend.imp ?_ ?_⟩
  · exact fun hr => ⟨hr.1, hr.2.1, hself.openFault?_eq_none⟩
  · rintro ⟨c, tail, hr, ht, hs⟩
    exact ⟨c, tail, hr, ht,
      Reading.stops_iff.mpr ⟨hself.2.1, hself.2.2, (Reading.stops_iff.mp hs).2.2⟩⟩

theorem statement?_eq_rule_iff {head : Head} {layout : Layout} :
    cut.statement? before = some (.opening head layout) ↔ cut.terminator = .openBrace ∧
      head = .rule (trimEnd cut.body) ∧ layout = { before, between := trailingBlanks cut.body } := by
  have hd : ∀ {body : Text} {semicolon : Bool},
      declarationOf? before body semicolon ≠ some (.opening head layout) := by
    intro body semicolon h
    rw [declarationOf?] at h
    split at h
    · cases h
    · split at h <;> cases h
  obtain ⟨body, terminator, rest⟩ := cut
  cases terminator <;> simp [StatementCut.statement?, hd, eq_comm]

theorem lead_of_readsBack {selector : Text} {layout : Layout}
    (h : Placed.ReadsBack ⟨.opening (.rule selector) layout, next⟩) :
    ¬ ['@'] <+: selector ∧ ¬ ['/', '*'] <+: selector := by
  obtain ⟨-, ⟨body, terminator, rest⟩, -, hseg, -, -, -, hat, hcomment⟩ := exists_statementCut h trivial
  obtain ⟨-, hhead, -⟩ := statement?_eq_rule_iff.mp hseg
  cases hhead
  have hp : trimEnd body <+: body := ⟨_, trimEnd_append body⟩
  exact ⟨fun h => hat (h.trans hp), fun h => hcomment (h.trans hp)⟩

/-- A rule is read back with another selector that leads where the old one led and begins neither
an at-rule nor a comment. -/
theorem readsBack_rule_reworded {selector selector' : Text} {layout : Layout}
    (h : Placed.ReadsBack ⟨.opening (.rule selector) layout, next⟩)
    (hw : Reading.Rewords {} selector selector')
    (hat : ¬ ['@'] <+: selector') (hcomment : ¬ ['/', '*'] <+: selector') :
    Placed.ReadsBack ⟨.opening (.rule selector') layout, next⟩ := by
  by_cases hs : selector = []
  · rwa [hw.1 hs, ← hs]
  obtain ⟨hb, ⟨body, terminator, rest⟩, hc, hseg, rfl, hfront, -⟩ := exists_statementCut h trivial
  obtain ⟨rfl, hhead, hl⟩ := statement?_eq_rule_iff.mp hseg
  cases hhead
  obtain ⟨tail, rfl⟩ : ∃ tail, rest = '{' :: tail := List.head?_eq_some_iff.mp (cutStatement_rest hc)
  have hbody : trimEnd body ++ trailingBlanks body = body := trimEnd_append body
  have hblank : NoBlankStart body := fun c hc => by
    have hf := hfront c hc
    rw [isFiller, Bool.or_eq_false_iff] at hf
    exact hf.1
  rw [← hbody] at hc
  obtain ⟨hfit, hcut'⟩ : Reading.Fits {} (trimEnd body) selector' ∧
      cutStatement (selector' ++ trailingBlanks body ++ '{' :: tail) =
        .ok ⟨selector' ++ trailingBlanks body, .openBrace, '{' :: tail⟩ :=
    @cutStatement_of_rewords _ _ [] _ _ _ hc hs (trim_trimEnd hblank) (blank_trailingBlanks body) hw
  obtain ⟨hfirst, hlast⟩ := trim_eq_self_iff.mp hfit.trimmed
  have hcut : trimEnd (selector' ++ trailingBlanks body) = selector' := by
    rw [trimEnd_append_blanks _ (blank_trailingBlanks body), trimEnd_eq_self hlast]
  have hbetween : trailingBlanks (selector' ++ trailingBlanks body) = trailingBlanks body := by
    have e := trimEnd_append (selector' ++ trailingBlanks body)
    rw [hcut] at e
    exact List.append_cancel_left e
  have hstart : StatementStart (selector' ++ trailingBlanks body ++ '{' :: tail) := by
    rw [List.append_assoc]
    cases hbl : trailingBlanks body with
    | nil =>
      exact statementStart_of_split hfit.ne_nil hfirst hfit.ends_nothing hat hcomment (by decide) tail
    | cons c more =>
      have hc : isBlank c := blank_trailingBlanks body c (hbl ▸ List.mem_cons_self ..)
      refine statementStart_of_split hfit.ne_nil hfirst hfit.ends_nothing hat hcomment ?_
        (more ++ '{' :: tail)
      rintro rfl
      cases hc
  have hread := readsBack_of_statement? hb hcut' hstart rfl
  rw [hcut, hbetween, ← hl] at hread
  exact hread

end

/-! ### At-rules -/

namespace Segment

def atRule? : Segment → Option (Text × Text × Layout)
  | .leaf (.atRule name params) layout => some (name, params, layout)
  | .opening (.atRule name params) layout => some (name, params, layout)
  | _ => none

def withParams (params : Text) : Segment → Segment
  | .leaf (.atRule name _) layout => .leaf (.atRule name params) layout
  | .opening (.atRule name _) layout => .opening (.atRule name params) layout
  | segment => segment

end Segment

section
variable {before next name params : Text} {segment : Segment} {layout : Layout}

theorem atRule?_of_statement? {cut : StatementCut} (h : cut.statement? before = some segment) :
    segment.atRule? = none := by
  have hs := isStatement_of_statement? h
  rcases segment with ⟨_ | _ | _, _⟩ | ⟨_ | _, _⟩ | _
  all_goals first | rfl | exact hs.elim

theorem head_of_takeAtKeyword? {s tail : Text} (h : takeAtKeyword? s = some (name, tail)) :
    ∀ c, tail.head? = some c → isNameChar c = false := by
  rw [takeAtKeyword?.eq_def] at h
  split at h
  · next rest =>
    split at h <;> cases h
    intro c hc
    have hn := List.head?_dropWhile_not isNameChar rest
    rw [hc] at hn
    simpa using hn
  · cases h

theorem exists_atRuleCut (h : Placed.ReadsBack ⟨segment, next⟩) (hs : segment.atRule?.isSome) :
    segment.before.all isFiller ∧ ∃ (name : Text) (cut : StatementCut),
      (name ≠ [] ∧ ∀ c ∈ name, isNameChar c) ∧ cutStatement (cut.body ++ cut.rest) = .ok cut ∧
        cut.atRule segment.before name = segment ∧ next = cut.behind ∧
          ∀ c, cut.body.head? = some c → isNameChar c = false := by
  obtain ⟨hb, text, -, hread⟩ := readSegment_of_readsBack h
  refine ⟨hb, ?_⟩
  generalize segment.before = before at hread
  cases text with
  | nil => cases hread
  | cons c tail =>
    rw [readSegment] at hread
    split at hread
    · cases hread
      cases hs
    · split at hread
      · obtain ⟨name, tail, cut, hn, hc, hseg, hnext⟩ := readAtRule_eq_segment_iff.mp hread
        have ha := cutStatement_append hc
        refine ⟨name, cut, name_of_takeAtKeyword? hn, by rwa [ha], hseg, hnext, fun c hc => ?_⟩
        exact head_of_takeAtKeyword? hn c (by rw [← ha, List.head?_append, hc]; rfl)
      · split at hread
        · rw [readComment] at hread
          split at hread <;> cases hread
          cases hs
        · obtain ⟨cut, -, hseg, -⟩ := readStatement_eq_segment_iff.mp hread
          rw [atRule?_of_statement? hseg] at hs
          cases hs

theorem readsBack_of_atRule {body rest : Text} {terminator : Terminator} (hb : before.all isFiller)
    (hn : name ≠ []) (hchars : ∀ c ∈ name, isNameChar c)
    (hhead : ∀ c, (body ++ rest).head? = some c → isNameChar c = false)
    (hc : cutStatement (body ++ rest) = .ok ⟨body, terminator, rest⟩) :
    Placed.ReadsBack ⟨StatementCut.atRule before name ⟨body, terminator, rest⟩,
      StatementCut.behind ⟨body, terminator, rest⟩⟩ := by
  obtain ⟨h1, h2⟩ := takeWhile_append_of_stop hchars hhead
  have hk : takeAtKeyword? ('@' :: (name ++ (body ++ rest))) = some (name, body ++ rest) := by
    rw [takeAtKeyword?, h1, h2, if_neg (by rwa [List.isEmpty_iff])]
  have hat : readAtRule before ('@' :: (name ++ (body ++ rest))) = .segment _ _ :=
    readAtRule_eq_segment_iff.mpr ⟨name, _, _, hk, hc, rfl, rfl⟩
  have hread : readSegment before ('@' :: (name ++ (body ++ rest))) = _ := hat
  exact readsBack_of_readSegment hb (by rintro _ ⟨⟩; rfl) hread

theorem atRuleLayout_of_ne_nil {body : Text} (h : (padding body).body ≠ []) :
    atRuleLayout before body =
      { before, afterName := (padding body).leading, between := (padding body).trailing } := by
  rw [atRuleLayout, if_neg (by rwa [List.isEmpty_iff])]

theorem atRule?_atRule (cut : StatementCut) : ∃ layout, (cut.atRule before name).atRule? =
    some (name, (padding cut.body).body, layout) ∧
      layout.afterName = (atRuleLayout before cut.body).afterName := by
  obtain ⟨body, terminator, rest⟩ := cut
  cases terminator <;> exact ⟨_, rfl, rfl⟩

theorem withParams_atRule {body body' rest : Text} {terminator : Terminator}
    (h : (padding body).body ≠ []) (h' : (padding body').body ≠ [])
    (h1 : (padding body').leading = (padding body).leading)
    (h2 : (padding body').trailing = (padding body).trailing) :
    (StatementCut.atRule before name ⟨body, terminator, rest⟩).withParams (padding body').body =
      StatementCut.atRule before name ⟨body', terminator, rest⟩ := by
  have hl : atRuleLayout before body' = atRuleLayout before body := by
    rw [atRuleLayout_of_ne_nil h, atRuleLayout_of_ne_nil h', h1, h2]
  cases terminator <;> simp only [StatementCut.atRule, Segment.withParams, hl]

theorem withParams_of_atRule? (h : segment.atRule? = some (name, params, layout)) :
    segment.withParams params = segment := by
  rcases segment with ⟨_ | _ | _, _⟩ | ⟨_ | _, _⟩ | _
  all_goals first | cases h; rfl | cases h

theorem afterName_or_of_readsBack (h : Placed.ReadsBack ⟨segment, next⟩)
    (hs : segment.atRule? = some (name, params, layout)) :
    layout.afterName ≠ [] ∨ ∀ c ∈ params.head?, isNameChar c = false := by
  by_cases hp : params = []
  · subst hp
    exact Or.inr fun c hc => by cases hc
  obtain ⟨-, own, ⟨body, terminator, rest⟩, -, -, hseg, -, hhead⟩ :=
    exists_atRuleCut h (by rw [hs]; rfl)
  obtain ⟨own', hown, hafter⟩ := @atRule?_atRule segment.before own ⟨body, terminator, rest⟩
  rw [hseg, hs] at hown
  cases hown
  dsimp only at hp hafter hhead ⊢
  rw [atRuleLayout_of_ne_nil hp] at hafter
  by_cases hl : (padding body).leading = []
  · refine Or.inr fun c hc => hhead c ?_
    rw [← padding_append body, hl, List.nil_append, List.head?_append_of_ne_nil _ hp]
    exact hc
  · exact Or.inl (by rwa [hafter])

/-- An at-rule is read back with other parameters that lead where the old ones led, and do not make
its name longer. -/
theorem readsBack_atRule_reworded {params' : Text} (h : Placed.ReadsBack ⟨segment, next⟩)
    (hs : segment.atRule? = some (name, params, layout)) (hw : Reading.Rewords {} params params')
    (hname : layout.afterName ≠ [] ∨ ∀ c ∈ params'.head?, isNameChar c = false) :
    Placed.ReadsBack ⟨segment.withParams params', next⟩ := by
  by_cases hold : params = []
  · rwa [hw.1 hold, ← hold, withParams_of_atRule? hs]
  obtain ⟨hb, own, ⟨body, terminator, rest⟩, ⟨hn, hchars⟩, hc, hseg, rfl, -⟩ :=
    exists_atRuleCut h (by rw [hs]; rfl)
  generalize segment.before = before at hb hseg
  subst hseg
  obtain ⟨own', hown, hafter⟩ := @atRule?_atRule before own ⟨body, terminator, rest⟩
  cases hs.symm.trans hown
  dsimp only at hold hw hafter
  rw [atRuleLayout_of_ne_nil hold] at hafter
  dsimp only at hafter
  have hlead : Blank (padding body).leading := blank_takeWhile body
  have hstart : (padding body).leading.foldl Reading.step {} = {} :=
    (Reading.split_of_neutral (neutral_of_blanks hlead)).2
  rw [← padding_append body] at hc
  obtain ⟨hfit, hcut⟩ := cutStatement_of_rewords hc hold (trim_trim body)
    (blank_trailingBlanks _) (by rwa [hstart])
  obtain ⟨hfirst, hlast⟩ := trim_eq_self_iff.mp hfit.trimmed
  have hne := hfit.ne_nil
  have hpad : padding ((padding body).leading ++ (params' ++ (padding body).trailing)) =
      ⟨(padding body).leading, params', (padding body).trailing⟩ :=
    padding_around hfirst hlast hne hlead (blank_trailingBlanks _)
  have hhead : ∀ c, ((padding body).leading ++ (params' ++ (padding body).trailing) ++ rest).head? =
      some c → isNameChar c = false := by
    intro c hc
    cases hl : (padding body).leading with
    | nil =>
      rw [hl, List.nil_append, List.append_assoc, List.head?_append_of_ne_nil _ hne] at hc
      exact hname.resolve_left (fun h => h (hafter.trans hl)) c hc
    | cons d more =>
      rw [hl] at hc hlead
      cases hc
      exact isNameChar_of_isBlank (List.forall_mem_cons.mp hlead).1
  have hread := readsBack_of_atRule hb hn hchars hhead hcut
  rw [← withParams_atRule hold (by rw [hpad]; exact hne) (by rw [hpad]) (by rw [hpad]), hpad] at hread
  exact hread

end

/-! ### Other white space in front -/

def Segment.withBefore (before : Text) : Segment → Segment
  | .leaf content layout => .leaf content { layout with before }
  | .opening head layout => .opening head { layout with before }
  | .closing _ => .closing before

section
variable {before before' s next : Text} {segment : Segment} {cut : StatementCut}

theorem statement?_withBefore (h : cut.statement? before = some segment) :
    cut.statement? before' = some (segment.withBefore before') := by
  have hd : ∀ {body : Text} {semicolon : Bool}, declarationOf? before body semicolon = some segment →
      declarationOf? before' body semicolon = some (segment.withBefore before') := by
    intro body semicolon h
    rw [declarationOf?] at h ⊢
    split at h
    · cases h
    · split at h <;> cases h
      next hn =>
      rw [if_neg hn]
      rfl
  obtain ⟨body, terminator, rest⟩ := cut
  cases terminator
  case openBrace => cases h; rfl
  all_goals exact hd h

theorem atRule_withBefore (name : Text) :
    cut.atRule before' name = (cut.atRule before name).withBefore before' := by
  have hl : ∀ body, atRuleLayout before' body = { atRuleLayout before body with before := before' } := by
    intro body
    rw [atRuleLayout, atRuleLayout]
    split <;> rfl
  obtain ⟨body, terminator, rest⟩ := cut
  cases terminator <;> simp only [StatementCut.atRule, Segment.withBefore, hl]

theorem readSegment_withBefore (h : readSegment before s = .segment segment next) :
    readSegment before' s = .segment (segment.withBefore before') next := by
  cases s with
  | nil => cases h
  | cons c tail =>
    rw [readSegment] at h ⊢
    split at h
    · next hc =>
      cases h
      rw [if_pos hc]
      rfl
    · next hbrace =>
      rw [if_neg hbrace]
      split at h
      · next hat =>
        obtain ⟨name, tail, cut, hn, hc, rfl, hnext⟩ := readAtRule_eq_segment_iff.mp h
        rw [if_pos hat]
        exact readAtRule_eq_segment_iff.mpr ⟨name, tail, cut, hn, hc, atRule_withBefore name, hnext⟩
      · next hat =>
        rw [if_neg hat]
        split at h
        · next hcomment =>
          rw [if_pos hcomment]
          rw [readComment] at h ⊢
          split at h <;> cases h
          rfl
        · next hcomment =>
          obtain ⟨cut, hc, hs, hnext⟩ := readStatement_eq_segment_iff.mp h
          rw [if_neg hcomment]
          exact readStatement_eq_segment_iff.mpr ⟨cut, hc, statement?_withBefore hs, hnext⟩

theorem readsBack_withBefore (h : Placed.ReadsBack ⟨segment, next⟩) (hb : before.all isFiller) :
    Placed.ReadsBack ⟨segment.withBefore before, next⟩ := by
  obtain ⟨-, text, hfirst, hread⟩ := readSegment_of_readsBack h
  exact readsBack_of_readSegment hb hfirst (readSegment_withBefore hread)

end

end StyleValues
