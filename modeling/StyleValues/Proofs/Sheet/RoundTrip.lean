import Mathlib
import StyleValues.Sheet.Nesting

/-!
# Reading and printing

A sheet that could be read prints as the very text it was read from. The
carried fact is that a nesting in progress, printed with its open blocks
left open, is the text of the segments put in place so far; each segment is
the text it was cut from by `nextSegment_print`.
-/

set_option autoImplicit false

namespace StyleValues

theorem segments_of_segment {s rest : Text} {segment : Segment}
    (h : nextSegment s = .segment segment rest) :
    segments s = (segment :: (segments rest).1, (segments rest).2) := by
  rw [segments]
  split
  · next h' => rw [h] at h'; cases h'; rfl
  · next h' => rw [h] at h'; cases h'
  · next h' => rw [h] at h'; cases h'

theorem segments_of_finished {s after : Text} (h : nextSegment s = .finished after) :
    segments s = ([], .finished after) := by
  rw [segments]
  split
  · next h' => rw [h] at h'; cases h'
  · next h' => rw [h] at h'; cases h'; rfl
  · next h' => rw [h] at h'; cases h'

theorem segments_of_broken {s : Text} {fault : Fault} (h : nextSegment s = .broken fault) :
    segments s = ([], .broken fault) := by
  rw [segments]
  split
  · next h' => rw [h] at h'; cases h'
  · next h' => rw [h] at h'; cases h'
  · next h' => rw [h] at h'; cases h'; rfl

/-- What holds of a segment wherever it is read holds of all segments of a text. -/
theorem forall_mem_segments {P : Segment → Prop}
    (h : ∀ s rest segment, nextSegment s = .segment segment rest → P segment) (s : Text) :
    ∀ segment ∈ (segments s).1, P segment := by
  induction s using segments.induct with
  | case1 s segment rest hn _ ih =>
    rw [segments_of_segment hn]
    exact List.forall_mem_cons.mpr ⟨h s rest segment hn, ih⟩
  | case2 s after hn =>
    rw [segments_of_finished hn]
    exact List.forall_mem_nil _
  | case3 s fault hn =>
    rw [segments_of_broken hn]
    exact List.forall_mem_nil _

def printSegments : List Segment → Text
  | [] => []
  | segment :: rest => segment.print ++ printSegments rest

theorem readComment_ne_finished (before s after : Text) : readComment before s ≠ .finished after := by
  intro h
  rw [readComment] at h
  split at h <;> cases h

theorem readAtRule_ne_finished (before s after : Text) : readAtRule before s ≠ .finished after := by
  intro h
  rw [readAtRule] at h
  split at h
  · cases h
  · split at h
    · cases h
    · simp only at h
      split at h <;> cases h

theorem readDeclaration_ne_finished (before body rest after : Text) (semicolon : Bool) :
    readDeclaration before body semicolon rest ≠ .finished after := by
  intro h
  rw [readDeclaration] at h
  split at h <;> cases h

theorem readStatement_ne_finished (before s after : Text) :
    readStatement before s ≠ .finished after := by
  intro h
  rw [readStatement] at h
  split at h
  · cases h
  · split at h
    · cases h
    · exact readDeclaration_ne_finished _ _ _ _ _ h
    · exact readDeclaration_ne_finished _ _ _ _ _ h
    · exact readDeclaration_ne_finished _ _ _ _ _ h

theorem readSegment_finished {before s after : Text} (h : readSegment before s = .finished after) :
    s = [] ∧ after = before := by
  cases s with
  | nil => cases h; exact ⟨rfl, rfl⟩
  | cons c s =>
    exfalso
    rw [readSegment] at h
    split at h
    · cases h
    · split at h
      · exact readAtRule_ne_finished _ _ _ h
      · split at h
        · exact readComment_ne_finished _ _ _ h
        · exact readStatement_ne_finished _ _ _ h

theorem nextSegment_finished {s after : Text} (h : nextSegment s = .finished after) :
    after = s := by
  rw [nextSegment] at h
  obtain ⟨hr, ha⟩ := readSegment_finished h
  have e := takeFiller_append s
  rw [ha]
  simpa [hr] using e

theorem segments_print {s after : Text} (h : (segments s).2 = .finished after) :
    printSegments (segments s).1 ++ after = s := by
  induction s using segments.induct with
  | case1 s segment rest hn _ ih =>
    rw [segments_of_segment hn] at h ⊢
    rw [printSegments, List.append_assoc, ih h]
    exact nextSegment_print hn
  | case2 s after' hn =>
    rw [segments_of_finished hn] at h ⊢
    cases h
    exact nextSegment_finished hn
  | case3 s fault hn =>
    rw [segments_of_broken hn] at h
    cases h

namespace Nesting

def printOpen : List OpenBlock → Text
  | [] => []
  | block :: outer =>
    printOpen outer ++ (printAll block.earlier ++ (block.head.print block.layout ++ ['{']))

def print (n : Nesting) : Text := printOpen n.blocks ++ printAll n.nodes

theorem head_print_after (head : Head) (layout : Layout) (after : Text) :
    head.print { layout with after } = head.print layout := by
  cases head <;> rfl

theorem add_print {n m : Nesting} {segment : Segment} (h : n.add segment = .ok m) :
    m.print = n.print ++ segment.print := by
  cases segment with
  | leaf content layout =>
    cases h
    simp [advance, addLeaf, print, printAll_append, printAll, Node.print, Segment.print]
  | opening head layout =>
    cases h
    simp [advance, openBlock, print, printOpen, printAll, Segment.print]
  | closing before =>
    rw [add, closeBlock] at h
    cases hb : n.blocks with
    | nil => rw [hb] at h; cases h
    | cons block outer =>
      rw [hb] at h
      cases h
      simp [advance, print, hb, printOpen, printAll_append, printAll, Node.print,
        Segment.print, head_print_after]

theorem addAll_print {n m : Nesting} {segments : List Segment} (h : n.addAll segments = .ok m) :
    m.print = n.print ++ printSegments segments := by
  induction segments generalizing n with
  | nil => cases h; simp [printSegments]
  | cons segment rest ih =>
    rw [addAll] at h
    cases ha : n.add segment with
    | error fault => rw [ha] at h; cases h
    | ok next =>
      rw [ha] at h
      rw [ih h, add_print ha, printSegments, List.append_assoc]

theorem finish_eq_ok {n : Nesting} {ending : Ending} {sheet : Stylesheet}
    (h : n.finish ending = .ok sheet) :
    ∃ after, ending = .finished after ∧ n.blocks = [] ∧ sheet = { nodes := n.nodes, after } := by
  cases ending with
  | broken fault => cases h
  | finished after =>
    rw [finish] at h
    cases hb : n.blocks with
    | nil => rw [hb] at h; cases h; exact ⟨after, rfl, rfl, rfl⟩
    | cons block outer => rw [hb] at h; cases h

/-- A sheet prints as the segments that were put in place for it. -/
theorem finish_print {s : Text} {n : Nesting} {sheet : Stylesheet}
    (ha : addAll {} (segments s).1 = .ok n) (hf : n.finish (segments s).2 = .ok sheet) :
    sheet.print = s := by
  obtain ⟨after, he, hb, hs⟩ := finish_eq_ok hf
  have hp := addAll_print ha
  have hn : n.print = printAll n.nodes := by simp [print, hb, printOpen]
  calc
    sheet.print = n.print ++ after := by rw [hs, hn]; rfl
    _ = printSegments (segments s).1 ++ after := by rw [hp]; simp [print, printOpen, printAll]
    _ = s := segments_print he

end Nesting

theorem parse_eq_ok_iff {s : Text} {sheet : Stylesheet} :
    parse s = .ok sheet ↔
      ∃ n, Nesting.addAll {} (segments s).1 = .ok n ∧ n.finish (segments s).2 = .ok sheet := by
  rw [parse]
  cases Nesting.addAll {} (segments s).1 <;> simp

/-- Nothing of a text is lost or moved when it is read. -/
theorem print_of_parse {s : Text} {sheet : Stylesheet} (h : parse s = .ok sheet) :
    sheet.print = s := by
  obtain ⟨n, ha, hf⟩ := parse_eq_ok_iff.mp h
  exact Nesting.finish_print ha hf

theorem print_of_parse_crowded :
    ∃ sheet, parse ";;/*c*/\u3000a{ b : c ;;d:;@e  {f{g:h}}@k;i:j}@l m".toList = .ok sheet ∧
      sheet.print = ";;/*c*/\u3000a{ b : c ;;d:;@e  {f{g:h}}@k;i:j}@l m".toList :=
  ⟨{ nodes := [
      .leaf (.comment ['c']) { before := [';', ';'] },
      .block (.rule ['a']) [
        .leaf (.declaration ['b'] ['c'])
          { before := [' '], between := [' ', ':', ' '], after := [' '], semicolon := true },
        .leaf (.declaration ['d'] []) { before := [';'], between := [':'], semicolon := true },
        .block (.atRule ['e'] [])
          [.block (.rule ['f']) [.leaf (.declaration ['g'] ['h']) { between := [':'] }] {}]
          { between := [' ', ' '] },
        .leaf (.atRule ['k'] []) { semicolon := true },
        .leaf (.declaration ['i'] ['j']) { between := [':'] }]
        { before := ['\u3000'] },
      .leaf (.atRule ['l'] ['m']) { afterName := [' '] }] },
    by cbv, print_of_parse (by cbv)⟩

end StyleValues
