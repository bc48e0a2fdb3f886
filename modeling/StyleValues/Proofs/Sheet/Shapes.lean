import StyleValues.Proofs.Sheet.Legibility
import StyleValues.Proofs.Text.Trimming

/-!
# The shape of trees that are read

Reading puts every character in one place: what stands between the parts of a
node is white space, with semicolons in front of it, and the parts themselves
are trimmed. Of the siblings in a list only the last can be without an end of
its own (`shaped_of_parse`).
-/

set_option autoImplicit false

namespace StyleValues

open Text

def Blank (s : Text) : Prop := ∀ c ∈ s, isBlank c

def Filler (s : Text) : Prop := ∀ c ∈ s, isFiller c

structure AtRuleShape (name params afterName between : Text) : Prop where
  name_ne_nil : name ≠ []
  name_chars : ∀ c ∈ name, isNameChar c
  params_trimmed : trim params = params
  afterName_blank : Blank afterName
  between_blank : Blank between

structure RuleShape (selector between : Text) : Prop where
  selector_trimmed : trim selector = selector
  between_blank : Blank between

structure DeclarationShape (property value between : Text) : Prop where
  property_ne_nil : property ≠ []
  property_trimmed : trim property = property
  value_trimmed : trim value = value
  between_colon : ∃ left right, Blank left ∧ Blank right ∧ between = left ++ ':' :: right

def Leaf.Shaped (layout : Layout) : Leaf → Prop
  | .atRule name params => AtRuleShape name params layout.afterName layout.between
  | .declaration property value => DeclarationShape property value layout.between
  | .comment text => ¬ ['*', '/'] <:+: text

def Head.Shaped (layout : Layout) : Head → Prop
  | .atRule name params => AtRuleShape name params layout.afterName layout.between
  | .rule selector => RuleShape selector layout.between

mutual

def Node.Shaped : Node → Prop
  | .leaf content layout => Filler layout.before ∧ content.Shaped layout
  | .block head children layout =>
    Filler layout.before ∧ head.Shaped layout ∧ Filler layout.after ∧ Shaped children

/-- Only the last of some siblings is a statement without an end of its own. -/
def Shaped : List Node → Prop
  | [] => True
  | n :: rest => (n.ends ∨ rest = []) ∧ n.Shaped ∧ Shaped rest

end

structure Stylesheet.Shaped (sheet : Stylesheet) : Prop where
  nodes : StyleValues.Shaped sheet.nodes
  after : Filler sheet.after

def Segment.Shaped : Segment → Prop
  | .leaf content layout => Filler layout.before ∧ content.Shaped layout
  | .opening head layout => Filler layout.before ∧ head.Shaped layout
  | .closing before => Filler before

/-! ### White space and names -/

section
variable {s body name params rest before : Text}

theorem blank_takeWhile (s : Text) : Blank (s.takeWhile isBlank) :=
  fun _ hc => List.mem_takeWhile_imp hc

theorem blank_trailingBlanks (s : Text) : Blank (trailingBlanks s) :=
  fun _ hc => isBlank_of_mem_trailingBlanks hc

theorem trim_trimEnd (h : NoBlankStart s) : trim (trimEnd s) = trimEnd s :=
  trim_eq_self (noBlankStart_trimEnd h) (noBlankEnd_trimEnd s)

theorem name_of_takeAtKeyword? (h : takeAtKeyword? s = some (name, rest)) :
    name ≠ [] ∧ ∀ c ∈ name, isNameChar c := by
  rw [takeAtKeyword?.eq_def] at h
  split at h
  · split at h <;> cases h
    next hn => exact ⟨by rwa [List.isEmpty_iff] at hn, fun _ hc => List.mem_takeWhile_imp hc⟩
  · cases h

theorem atRuleShape (hn : name ≠ [] ∧ ∀ c ∈ name, isNameChar c) (before body : Text) :
    AtRuleShape name (padding body).body (atRuleLayout before body).afterName
      (atRuleLayout before body).between := by
  have hl : Blank (atRuleLayout before body).afterName ∧
      Blank (atRuleLayout before body).between := by
    rw [atRuleLayout]
    split
    · exact ⟨List.forall_mem_nil _, blank_takeWhile body⟩
    · exact ⟨blank_takeWhile body, blank_trailingBlanks _⟩
  exact ⟨hn.1, hn.2, trim_trim body, hl.1, hl.2⟩

/-! ### Segments -/

variable {segment : Segment}

theorem shaped_of_readComment (hb : Filler before)
    (h : readComment before s = .segment segment rest) : segment.Shaped := by
  rw [readComment] at h
  split at h
  · next text tail hc =>
    cases h
    rw [takeComment?.eq_def] at hc
    split at hc
    · exact ⟨hb, not_infix_of_breakAt? (List.cons_ne_nil _ _) hc⟩
    · cases hc
  · cases h

theorem shaped_of_readAtRule (hb : Filler before)
    (h : readAtRule before s = .segment segment rest) : segment.Shaped := by
  rw [readAtRule] at h
  split at h
  · cases h
  · next name tail hn =>
    split at h
    · cases h
    · next cut hc =>
      have hs := atRuleShape (name_of_takeAtKeyword? hn) before cut.body
      have hf : Filler (atRuleLayout before cut.body).before := by
        rwa [(atRuleLayout_print before cut.body).1]
      simp only at h
      split at h <;> cases h
      all_goals exact ⟨hf, hs⟩

theorem shaped_of_declarationOf? (hb : Filler before) (hs : NoBlankStart body) {semicolon : Bool}
    (h : declarationOf? before body semicolon = some segment) : segment.Shaped := by
  rw [declarationOf?] at h
  split at h
  · cases h
  · next left right hc =>
    have hl : NoBlankStart left := hs.of_prefix ⟨_, ColonSearch.split?_append hc⟩
    split at h <;> cases h
    next hp =>
    exact ⟨hb, by rwa [List.isEmpty_iff] at hp, trim_trimEnd hl, trim_trim right, _, _,
      blank_trailingBlanks left, blank_takeWhile right, rfl⟩

theorem shaped_of_readStatement (hb : Filler before) (hs : NoBlankStart s)
    (h : readStatement before s = .segment segment rest) : segment.Shaped := by
  rw [readStatement] at h
  split at h
  · cases h
  · next cut hc =>
    have hbody : NoBlankStart cut.body := hs.of_prefix ⟨_, cutStatement_append hc⟩
    split at h
    · cases h
      exact ⟨hb, trim_trimEnd hbody, blank_trailingBlanks cut.body⟩
    all_goals exact shaped_of_declarationOf? hb hbody (readDeclaration_eq h).2

theorem shaped_of_nextSegment (h : nextSegment s = .segment segment rest) : segment.Shaped := by
  have hb : Filler (takeFiller s).1 := fun _ hc => List.mem_takeWhile_imp hc
  have hs : NoBlankStart (takeFiller s).2 := by
    intro c hc
    have hf := stop_of_dropWhile hc
    rw [isFiller, Bool.or_eq_false_iff] at hf
    exact hf.1
  rw [nextSegment] at h
  generalize (takeFiller s).1 = before, (takeFiller s).2 = tail at h hb hs
  cases tail with
  | nil => cases h
  | cons c tail =>
    rw [readSegment] at h
    split at h
    · cases h; exact hb
    · split at h
      · exact shaped_of_readAtRule hb h
      · split at h
        · exact shaped_of_readComment hb h
        · exact shaped_of_readStatement hb hs h

end

/-! ### Trees -/

theorem shaped_of_segmentsOf {after : Text} {nodes : List Node} (ha : Arranged after nodes)
    (hs : ∀ segment ∈ segmentsOf nodes, segment.Shaped) : Shaped nodes := by
  induction nodes using forestInduction generalizing after with
  | nil => trivial
  | leaf content layout rest ih =>
    obtain ⟨hl, hr⟩ := List.forall_mem_cons.mp hs
    exact ⟨ha.1.imp_right And.left, hl, ih ha.2.2 hr⟩
  | block head children layout rest ihc ihr =>
    rw [segmentsOf, Node.segments, List.cons_append, List.append_assoc] at hs
    obtain ⟨⟨hb, hh⟩, hs⟩ := List.forall_mem_cons.mp hs
    obtain ⟨hc, hs⟩ := List.forall_mem_append.mp hs
    obtain ⟨hl, hr⟩ := List.forall_mem_cons.mp hs
    have hhead : head.Shaped layout := by cases head <;> exact hh
    exact ⟨ha.1.imp_right And.left, ⟨hb, hhead, hl, ihc ha.2.1 hc⟩, ihr ha.2.2 hr⟩

/-- A tree that is read has its white space in its layout and nothing else there, but for the
marks of its nodes, and its statements are ended in all places but the last of a list. -/
theorem shaped_of_parse {s : Text} {sheet : Stylesheet} (h : parse s = .ok sheet) :
    sheet.Shaped := by
  have ha := (parse_eq_ok_iff_legible.mp h).2.2
  have hs := forall_mem_segments (fun _ _ _ => shaped_of_nextSegment) s
  rw [parse_eq_ok_iff_segments.mp h] at hs
  exact ⟨shaped_of_segmentsOf ha hs, List.all_eq_true.mp ha.filler⟩

theorem shaped_of_parse_crowded :
    ∃ sheet, parse ";;/*c**/\u3000{ b : c ;;d:;@e  {f{g:h}}@k ;i:j}@l m".toList = .ok sheet ∧
      sheet.Shaped := by
  have h : parse ";;/*c**/\u3000{ b : c ;;d:;@e  {f{g:h}}@k ;i:j}@l m".toList = .ok
      { nodes := [
        .leaf (.comment ['c', '*']) { before := [';', ';'] },
        .block (.rule []) [
          .leaf (.declaration ['b'] ['c'])
            { before := [' '], between := [' ', ':', ' '], after := [' '], semicolon := true },
          .leaf (.declaration ['d'] []) { before := [';'], between := [':'], semicolon := true },
          .block (.atRule ['e'] [])
            [.block (.rule ['f']) [.leaf (.declaration ['g'] ['h']) { between := [':'] }] {}]
            { between := [' ', ' '] },
          .leaf (.atRule ['k'] []) { between := [' '], semicolon := true },
          .leaf (.declaration ['i'] ['j']) { between := [':'] }]
          { before := ['\u3000'] },
        .leaf (.atRule ['l'] ['m']) { afterName := [' '] }] } := by cbv
  exact ⟨_, h, shaped_of_parse h⟩

end StyleValues
