import StyleValues.Sheet.Colon
import StyleValues.Sheet.Printer
import StyleValues.Sheet.Statement
import StyleValues.Text.Alphanumeric
import StyleValues.Text.Blank

/-!
# Segments

A style sheet is first cut into segments, each of which stands for itself:
a leaf, the head of a block with its opening brace, or a closing brace. A
segment knows neither its place in the text nor the blocks around it, so the
segments of two texts that are put together are those of the one followed by
those of the other, as long as the first does not end inside a statement.

Cutting loses nothing: the printed segment followed by what is left is the
text that was cut (`nextSegment_print`).
-/

set_option autoImplicit false

namespace StyleValues

open Text

inductive Segment where
  | leaf (content : Leaf) (layout : Layout)
  | opening (head : Head) (layout : Layout)
  | closing (before : Text)
deriving DecidableEq, Repr

def Segment.print : Segment → Text
  | .leaf content layout => content.print layout
  | .opening head layout => head.print layout ++ ['{']
  | .closing before => before ++ ['}']

/-- What is found at the start of a text. The offset of a fault counts from there. -/
inductive Found where
  | segment (segment : Segment) (rest : Text)
  | finished (after : Text)
  | broken (fault : Fault)
deriving DecidableEq, Repr

def isFiller (c : Char) : Bool := isBlank c || c == ';'

def takeFiller (s : Text) : Text × Text := (s.takeWhile isFiller, s.dropWhile isFiller)

/-- The text of a comment at the start, without its marks, and what follows it. -/
def takeComment? : Text → Option (Text × Text)
  | '/' :: '*' :: rest => breakAt? ['*', '/'] rest
  | _ => none

def takeAtKeyword? : Text → Option (Text × Text)
  | '@' :: rest =>
    if (rest.takeWhile isNameChar).isEmpty then none
    else some (rest.takeWhile isNameChar, rest.dropWhile isNameChar)
  | _ => none

def readComment (before s : Text) : Found :=
  match takeComment? s with
  | some (text, rest) => .segment (.leaf (.comment text) { before }) rest
  | none => .broken (.unclosedComment before.byteLength)

/-- The layout of an at-rule whose name is followed by `body`. Without
parameters all the white space stands in front of the block. -/
def atRuleLayout (before body : Text) : Layout :=
  if (padding body).body.isEmpty then { before, between := (padding body).leading }
  else { before, afterName := (padding body).leading, between := (padding body).trailing }

def readAtRule (before s : Text) : Found :=
  match takeAtKeyword? s with
  | none => .broken (.missingAtRuleName before.byteLength)
  | some (name, tail) =>
    match cutStatement tail with
    | .error fault => .broken (fault.shift (before.byteLength + (1 + name.byteLength)))
    | .ok cut =>
      let params := (padding cut.body).body
      let layout := atRuleLayout before cut.body
      match cut.terminator with
      | .openBrace => .segment (.opening (.atRule name params) layout) cut.rest.tail
      | .semicolon =>
        .segment (.leaf (.atRule name params) { layout with semicolon := true }) cut.rest.tail
      | .closeBrace => .segment (.leaf (.atRule name params) layout) cut.rest
      | .endOfText => .segment (.leaf (.atRule name params) layout) cut.rest

def declarationOf? (before body : Text) (semicolon : Bool) : Option Segment :=
  match splitAtColon? body with
  | none => none
  | some (left, right) =>
    if (trimEnd left).isEmpty then none
    else some (.leaf (.declaration (trimEnd left) (padding right).body)
      { before
        between := trailingBlanks left ++ ':' :: (padding right).leading
        after := (padding right).trailing
        semicolon })

def readDeclaration (before body : Text) (semicolon : Bool) (rest : Text) : Found :=
  match declarationOf? before body semicolon with
  | some segment => .segment segment rest
  | none => .broken (.unknownWord (trim body) before.byteLength)

def readStatement (before s : Text) : Found :=
  match cutStatement s with
  | .error fault => .broken (fault.shift before.byteLength)
  | .ok cut =>
    match cut.terminator with
    | .openBrace =>
      .segment (.opening (.rule (trimEnd cut.body)) { before, between := trailingBlanks cut.body })
        cut.rest.tail
    | .semicolon => readDeclaration before cut.body true cut.rest.tail
    | .closeBrace => readDeclaration before cut.body false cut.rest
    | .endOfText => readDeclaration before cut.body false cut.rest

def readSegment (before : Text) : Text → Found
  | [] => .finished before
  | c :: rest =>
    if c = '}' then .segment (.closing before) rest
    else if c = '@' then readAtRule before (c :: rest)
    else if c = '/' ∧ rest.head? = some '*' then readComment before (c :: rest)
    else readStatement before (c :: rest)

def nextSegment (s : Text) : Found := readSegment (takeFiller s).1 (takeFiller s).2

/-! ### Cutting loses nothing -/

theorem tail_of_head? {s : Text} {c : Char} (h : s.head? = some c) : c :: s.tail = s := by
  cases s with
  | nil => simp at h
  | cons d s => simp_all

theorem takeFiller_append (s : Text) : (takeFiller s).1 ++ (takeFiller s).2 = s :=
  List.takeWhile_append_dropWhile

theorem takeComment?_append {s text rest : Text} (h : takeComment? s = some (text, rest)) :
    '/' :: '*' :: (text ++ '*' :: '/' :: rest) = s := by
  rw [takeComment?.eq_def] at h
  split at h
  · rw [← breakAt?_append h]
    simp
  · cases h

theorem takeAtKeyword?_append {s name rest : Text} (h : takeAtKeyword? s = some (name, rest)) :
    '@' :: (name ++ rest) = s := by
  rw [takeAtKeyword?.eq_def] at h
  split at h
  · split at h <;> cases h
    rw [List.takeWhile_append_dropWhile]
  · cases h

theorem readComment_print {before s rest : Text} {segment : Segment}
    (h : readComment before s = .segment segment rest) : segment.print ++ rest = before ++ s := by
  rw [readComment] at h
  split at h
  · next text tail hc =>
    cases h
    rw [← takeComment?_append hc]
    simp [Segment.print, Leaf.print]
  · cases h

theorem all_of_dropWhile_eq_nil {p : Char → Bool} {s : Text} (h : s.dropWhile p = []) :
    s.all p = true := by
  induction s with
  | nil => rfl
  | cons c s ih =>
    rw [List.dropWhile_cons] at h
    split at h
    · next hc => simp [hc, ih h]
    · cases h

/-- The parts of an at-rule put together. -/
theorem atRuleLayout_print (before body : Text) :
    (atRuleLayout before body).before = before ∧
      (atRuleLayout before body).afterName ++
        ((padding body).body ++ (atRuleLayout before body).between) = body := by
  have e := padding_append body
  rw [atRuleLayout]
  split
  · next he =>
    have hb : (padding body).body = [] := by simpa using he
    have ht : (padding body).trailing = [] := by
      simp only [padding, trimEnd, trailingBlanks] at hb ⊢
      have hd : (body.dropWhile isBlank).reverse.dropWhile isBlank = [] := by simpa using hb
      cases hs : body.dropWhile isBlank with
      | nil => rfl
      | cons c s =>
        have hc : isBlank c = false := by
          have := List.head?_dropWhile_not isBlank body
          rw [hs] at this
          simpa using this
        rw [hs] at hd
        have hall : ∀ d ∈ (c :: s).reverse, isBlank d = true := by
          rw [← List.all_eq_true]
          exact all_of_dropWhile_eq_nil hd
        simp_all
    rw [hb, ht] at e
    exact ⟨rfl, by simpa [hb] using e⟩
  · exact ⟨rfl, e⟩

theorem semicolon_atRuleLayout (before body : Text) : (atRuleLayout before body).semicolon = false := by
  rw [atRuleLayout]
  split <;> rfl

theorem declarationOf?_print {before body : Text} {semicolon : Bool} {segment : Segment}
    (h : declarationOf? before body semicolon = some segment) :
    segment.print = before ++ (body ++ if semicolon then [';'] else []) := by
  rw [declarationOf?] at h
  split at h
  · cases h
  · next left right hc =>
    split at h
    · cases h
    · cases h
      have e := ColonSearch.split?_append hc
      have l := trimEnd_append left
      have r := padding_append right
      rw [← e]
      conv => rhs; rw [← l, ← r]
      simp [Segment.print, Leaf.print, Layout.terminator]

theorem readDeclaration_print {before body rest rest' : Text} {semicolon : Bool}
    {segment : Segment} (h : readDeclaration before body semicolon rest = .segment segment rest') :
    segment.print ++ rest' = before ++ (body ++ ((if semicolon then [';'] else []) ++ rest)) := by
  rw [readDeclaration] at h
  split at h
  · next s hd =>
    cases h
    rw [declarationOf?_print hd]
    simp
  · cases h

theorem readAtRule_print {before s rest : Text} {segment : Segment}
    (h : readAtRule before s = .segment segment rest) : segment.print ++ rest = before ++ s := by
  rw [readAtRule] at h
  split at h
  · cases h
  · next name tail hn =>
    split at h
    · cases h
    · next cut hc =>
      have t := cutStatement_rest hc
      obtain ⟨lb, lp⟩ := atRuleLayout_print before cut.body
      have ls := semicolon_atRuleLayout before cut.body
      rw [← takeAtKeyword?_append hn, ← cutStatement_append hc, ← lp]
      simp only at h
      split at h <;> cases h <;> rename_i ht <;> rw [ht] at t <;> simp only at t
      · conv => rhs; rw [← tail_of_head? t]
        simp [Segment.print, Head.print, lb]
      · conv => rhs; rw [← tail_of_head? t]
        simp [Segment.print, Leaf.print, Layout.terminator, lb]
      · simp [Segment.print, Leaf.print, Layout.terminator, lb, ls]
      · simp [Segment.print, Leaf.print, Layout.terminator, lb, ls]

theorem readStatement_print {before s rest : Text} {segment : Segment}
    (h : readStatement before s = .segment segment rest) : segment.print ++ rest = before ++ s := by
  rw [readStatement] at h
  split at h
  · cases h
  · next cut hc =>
    have e := cutStatement_append hc
    have t := cutStatement_rest hc
    rw [← e]
    split at h <;> rename_i ht <;> rw [ht] at t <;> simp only at t
    · cases h
      conv => rhs; rw [← tail_of_head? t]
      conv => rhs; rw [← trimEnd_append cut.body]
      simp [Segment.print, Head.print]
    · rw [readDeclaration_print h]
      simp [tail_of_head? t]
    · rw [readDeclaration_print h]
      simp
    · rw [readDeclaration_print h]
      simp

theorem readSegment_print {before s rest : Text} {segment : Segment}
    (h : readSegment before s = .segment segment rest) : segment.print ++ rest = before ++ s := by
  cases s with
  | nil => simp [readSegment] at h
  | cons c s =>
    rw [readSegment] at h
    split at h
    · next hc => cases h; simp [Segment.print, hc]
    · split at h
      · exact readAtRule_print h
      · split at h
        · exact readComment_print h
        · exact readStatement_print h

theorem nextSegment_print {s rest : Text} {segment : Segment}
    (h : nextSegment s = .segment segment rest) : segment.print ++ rest = s := by
  rw [readSegment_print h, takeFiller_append]

/-! ### Cutting gets on -/

theorem declarationOf?_ne_nil {before body : Text} {semicolon : Bool} {segment : Segment}
    (h : declarationOf? before body semicolon = some segment) : segment.print ≠ [] := by
  have hb : body ≠ [] := by
    rintro rfl
    simp [declarationOf?, splitAtColon?, ColonSearch.split?] at h
  rw [declarationOf?_print h]
  simp [hb]

theorem readDeclaration_ne_nil {before body rest rest' : Text} {semicolon : Bool}
    {segment : Segment} (h : readDeclaration before body semicolon rest = .segment segment rest') :
    segment.print ≠ [] := by
  rw [readDeclaration] at h
  split at h
  · next hd => cases h; exact declarationOf?_ne_nil hd
  · cases h

theorem readComment_ne_nil {before s rest : Text} {segment : Segment}
    (h : readComment before s = .segment segment rest) : segment.print ≠ [] := by
  rw [readComment] at h
  split at h <;> cases h
  simp [Segment.print, Leaf.print]

theorem readAtRule_ne_nil {before s rest : Text} {segment : Segment}
    (h : readAtRule before s = .segment segment rest) : segment.print ≠ [] := by
  rw [readAtRule] at h
  split at h
  · cases h
  · split at h
    · cases h
    · simp only at h
      split at h <;> cases h <;> simp [Segment.print, Head.print, Leaf.print]

theorem readStatement_ne_nil {before s rest : Text} {segment : Segment}
    (h : readStatement before s = .segment segment rest) : segment.print ≠ [] := by
  rw [readStatement] at h
  split at h
  · cases h
  · split at h
    · cases h; simp [Segment.print]
    · exact readDeclaration_ne_nil h
    · exact readDeclaration_ne_nil h
    · exact readDeclaration_ne_nil h

theorem nextSegment_ne_nil {s rest : Text} {segment : Segment}
    (h : nextSegment s = .segment segment rest) : segment.print ≠ [] := by
  rw [nextSegment] at h
  generalize (takeFiller s).1 = before at h
  cases hs : (takeFiller s).2 with
  | nil => simp [hs, readSegment] at h
  | cons c tail =>
    rw [hs, readSegment] at h
    split at h
    · cases h; simp [Segment.print]
    · split at h
      · exact readAtRule_ne_nil h
      · split at h
        · exact readComment_ne_nil h
        · exact readStatement_ne_nil h

theorem nextSegment_length_lt {s rest : Text} {segment : Segment}
    (h : nextSegment s = .segment segment rest) : rest.length < s.length := by
  have hp := List.length_pos_iff.mpr (nextSegment_ne_nil h)
  rw [← nextSegment_print h, List.length_append]
  omega

/-! ### All segments of a text -/

/-- How the cutting of a text ends. The offset of a fault counts from the end of
the last segment. -/
inductive Ending where
  | finished (after : Text)
  | broken (fault : Fault)
deriving DecidableEq, Repr

def segments (s : Text) : List Segment × Ending :=
  match h : nextSegment s with
  | .segment segment rest =>
    have := nextSegment_length_lt h
    (segment :: (segments rest).1, (segments rest).2)
  | .finished after => ([], .finished after)
  | .broken fault => ([], .broken fault)
termination_by s.length

end StyleValues
