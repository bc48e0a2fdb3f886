import StyleValues.Proofs.Sheet.Appending
import StyleValues.Proofs.Sheet.Units
import StyleValues.Proofs.Text.Trimming

/-!
# Where faults stand

A fault stands at its cause: what is reported is there to be seen in the text
from that place on, and the text in front of a closing brace too many is a
sheet of its own (`shown_of_parse`).
-/

set_option autoImplicit false

namespace StyleValues

open Text

/-- Whether a text ends in a backslash that no other backslash in front of it escapes. -/
def endsInEscape (s : Text) : Bool := (s.reverse.takeWhile (· == '\\')).length % 2 == 1

/-- What shows a fault in the text in front of its place and from there on. -/
def Fault.Shown (before rest : Text) : Fault → Prop
  | .unclosedBlock _ => rest.head? = some '{'
  | .unclosedComment _ => ∃ inside, rest = '/' :: '*' :: inside ∧ ¬ ['*', '/'] <:+: inside
  | .unclosedString _ => ∃ quote inside, rest = quote :: inside ∧ isQuote quote ∧
      ∀ body after, inside = body ++ quote :: after → endsInEscape body
  | .unexpectedCloseBrace _ => rest.head? = some '}' ∧ ∃ sheet, parse before = .ok sheet
  | .unknownWord word _ => word ≠ [] ∧ trim word = word ∧ word <+: rest ∧
      ∃ cut, cutStatement rest = .ok cut ∧ word = trim cut.body ∧
        (findColon? cut.body = none ∨ cut.body.head? = some ':')
  | .missingAtRuleName _ => ∃ tail, rest = '@' :: tail ∧ ∀ c ∈ tail.head?, isNameChar c = false

def Fault.ShownIn (s : Text) (fault : Fault) : Prop :=
  ∃ front rest, front ++ rest = s ∧ front.byteLength = fault.offset ∧
    ∀ before, fault.Shown before rest

theorem Fault.shown_shift {before rest : Text} {fault : Fault} (n : Nat) :
    (fault.shift n).Shown before rest ↔ fault.Shown before rest := by
  cases fault <;> rfl

theorem Fault.ShownIn.behind {s : Text} {fault : Fault} (h : fault.ShownIn s) (front : Text) :
    (fault.shift front.byteLength).ShownIn (front ++ s) := by
  obtain ⟨left, rest, rfl, hl, hs⟩ := h
  refine ⟨front ++ left, rest, List.append_assoc _ _ _, ?_, fun before => ?_⟩
  · rw [byteLength_append, hl, Fault.offset_shift]
  · rw [Fault.shown_shift]
    exact hs before

theorem Fault.shownIn_of_offset {s : Text} {fault : Fault} (ho : fault.offset = 0)
    (hs : ∀ before, fault.Shown before s) : fault.ShownIn s :=
  ⟨[], s, rfl, ho.symm, hs⟩

/-! ### Strings and comments -/

theorem endsInEscape_concat (s : Text) (c : Char) :
    endsInEscape (s ++ [c]) = (c == '\\' && !endsInEscape s) := by
  rw [endsInEscape, endsInEscape, List.reverse_append, List.reverse_singleton,
    List.singleton_append, List.takeWhile_cons]
  by_cases hc : c = '\\'
  · simp only [hc, beq_self_eq_true, if_true, List.length_cons, Bool.true_and]
    generalize (s.reverse.takeWhile (· == '\\')).length = n
    rcases Nat.mod_two_eq_zero_or_one n with h | h <;> simp [Nat.add_mod, h]
  · simp [hc]

theorem endsInEscape_of_takeQuoted? {quote : Char} {front body after : Text}
    (h : takeQuoted? quote (endsInEscape front) (body ++ quote :: after) = none) :
    endsInEscape (front ++ body) := by
  induction body generalizing front with
  | nil =>
    rw [List.append_nil]
    cases he : endsInEscape front with
    | true => rfl
    | false =>
      rw [he, List.nil_append, takeQuoted?, if_pos rfl] at h
      cases h
  | cons c body ih =>
    have hf : front ++ c :: body = (front ++ [c]) ++ body := by simp
    rw [hf]
    apply ih
    rw [endsInEscape_concat]
    cases he : endsInEscape front with
    | true =>
      rw [he, List.cons_append, takeQuoted?, Option.map_eq_none_iff] at h
      rwa [Bool.not_true, Bool.and_false]
    | false =>
      rw [he, List.cons_append, takeQuoted?] at h
      split at h
      · cases h
      · rw [Option.map_eq_none_iff] at h
        rwa [Bool.not_false, Bool.and_true]

theorem not_infix_of_breakAt?_eq_none {pattern s : Text} (h : breakAt? pattern s = none) :
    ¬ pattern <:+: s := by
  rw [← hasSubtext_iff, hasSubtext, h]
  exact Bool.false_ne_true

theorem shownIn_of_takeUnit {c : Char} {rest : Text} {fault : Fault}
    (h : takeUnit c rest = .error fault) : fault.ShownIn (c :: rest) := by
  rw [takeUnit] at h
  split at h
  · cases h
  · split at h
    · next hq =>
      split at h <;> cases h
      next hn =>
      refine Fault.shownIn_of_offset rfl fun _ => ⟨c, rest, rfl, hq, ?_⟩
      rintro body after rfl
      have he : endsInEscape ([] ++ body) := endsInEscape_of_takeQuoted? hn
      exact he
    · split at h
      · next hm =>
        obtain ⟨rfl, hs⟩ := hm
        obtain ⟨tail, rfl⟩ := List.head?_eq_some_iff.mp hs
        split at h <;> cases h
        next hn =>
        exact Fault.shownIn_of_offset rfl fun _ => ⟨tail, rfl, not_infix_of_breakAt?_eq_none hn⟩
      · cases h

theorem shownIn_of_cutUnits {depth : Nat} {s : Text} {fault : Fault}
    (h : cutUnits depth s = .error fault) : fault.ShownIn s := by
  induction depth, s using cutUnits.induct generalizing fault with
  | case1 depth => rw [cutUnits_nil] at h; cases h
  | case2 depth c rest hc => rw [cutUnits_of_stop hc] at h; cases h
  | case3 depth c rest hc f hu =>
    rw [cutUnits_of_error hc hu] at h
    cases h
    exact shownIn_of_takeUnit hu
  | case4 depth c rest hc unit after hu _ ih =>
    rw [cutUnits_of_unit hc hu] at h
    cases hn : cutUnits (depthBehind depth c) after with
    | ok cut => rw [hn] at h; cases h
    | error f =>
      rw [hn] at h
      cases h
      rw [← (takeUnit_append hu).1]
      exact (ih hn).behind unit

theorem shownIn_of_cutStatement {s : Text} {fault : Fault} (h : cutStatement s = .error fault) :
    fault.ShownIn s := by
  rw [cutStatement_eq_cutUnits] at h
  exact shownIn_of_cutUnits h

/-! ### Segments -/

section
variable {before s tail body : Text} {fault : Fault}

theorem shownIn_of_readComment (h : readComment before ('/' :: '*' :: tail) = .broken fault) :
    fault.ShownIn (before ++ '/' :: '*' :: tail) := by
  rw [readComment] at h
  split at h <;> cases h
  next hn =>
  exact ⟨before, _, rfl, rfl, fun _ => ⟨tail, rfl, not_infix_of_breakAt?_eq_none hn⟩⟩

theorem shownIn_of_readAtRule (h : readAtRule before ('@' :: tail) = .broken fault) :
    fault.ShownIn (before ++ '@' :: tail) := by
  rw [readAtRule] at h
  split at h
  · next hn =>
    cases h
    rw [takeAtKeyword?] at hn
    split at hn
    · next he =>
      refine ⟨before, _, rfl, rfl, fun _ => ⟨tail, rfl, fun c hc => ?_⟩⟩
      obtain ⟨rest, rfl⟩ := List.head?_eq_some_iff.mp hc
      rw [← Bool.not_eq_true]
      intro hx
      rw [List.takeWhile_cons_of_pos hx] at he
      cases he
    · cases hn
  · next name rest hn =>
    split at h
    · next f hc =>
      cases h
      have hs := ((shownIn_of_cutStatement hc).behind ('@' :: name)).behind before
      rw [List.cons_append, takeAtKeyword?_append hn, Fault.shift_shift] at hs
      exact hs
    · simp only at h
      split at h <;> cases h

theorem colon_of_declarationOf?_eq_none (hs : NoBlankStart body) {semicolon : Bool}
    (h : declarationOf? before body semicolon = none) :
    findColon? body = none ∨ body.head? = some ':' := by
  rw [declarationOf?] at h
  split at h
  · next hc => exact Or.inl (by rw [findColon?, hc]; rfl)
  · next left right hc =>
    have ha := ColonSearch.split?_append hc
    split at h
    · next hp =>
      rw [List.isEmpty_iff, trimEnd_eq_nil_iff (hs.of_prefix ⟨_, ha⟩)] at hp
      exact Or.inr (by rw [← ha, hp]; rfl)
    · cases h

theorem shownIn_of_readDeclaration {cut : StatementCut} (hc : cutStatement s = .ok cut)
    (hs : NoBlankStart s) (hn : cut.body ≠ []) {semicolon : Bool} {rest : Text}
    (h : readDeclaration before cut.body semicolon rest = .broken fault) :
    fault.ShownIn (before ++ s) := by
  have ha := cutStatement_append hc
  have hb : NoBlankStart cut.body := hs.of_prefix ⟨_, ha⟩
  have ht : trim cut.body = trimEnd cut.body := congrArg trimEnd (dropWhile_eq_self hb)
  rw [readDeclaration] at h
  split at h
  · cases h
  · next hd =>
    cases h
    refine ⟨before, s, rfl, rfl, fun _ => ⟨?_, trim_trim _, ?_, cut, hc, rfl,
      colon_of_declarationOf?_eq_none hb hd⟩⟩
    · rwa [ht, ne_eq, trimEnd_eq_nil_iff hb]
    · rw [ht]
      exact List.IsPrefix.trans ⟨_, trimEnd_append cut.body⟩ ⟨_, ha⟩

theorem shownIn_of_readStatement {c : Char} (hf : isFiller c = false) (hb : c ≠ '}')
    (h : readStatement before (c :: tail) = .broken fault) :
    fault.ShownIn (before ++ c :: tail) := by
  rw [readStatement] at h
  split at h
  · next f hc =>
    cases h
    exact (shownIn_of_cutStatement hc).behind before
  · next cut hc =>
    have hs : NoBlankStart (c :: tail) := by
      rintro d hd
      cases hd
      rw [isFiller, Bool.or_eq_false_iff] at hf
      exact hf.1
    have hn : cut.terminator ≠ .openBrace → cut.body ≠ [] := by
      intro ht he
      have ha := cutStatement_append hc
      have hr := cutStatement_rest hc
      rw [he, List.nil_append] at ha
      rw [ha] at hr
      cases hx : cut.terminator with
      | openBrace => exact ht hx
      | semicolon => rw [hx] at hr; cases hr; cases hf
      | closeBrace =>
        have hr := cutStatement_closeBrace hc hx
        rw [ha] at hr
        cases hr
        exact hb rfl
      | endOfText => rw [hx] at hr; cases hr
    split at h
    · cases h
    all_goals
      next ht => exact shownIn_of_readDeclaration hc hs (hn (by rw [ht]; decide)) h

theorem shownIn_of_nextSegment (h : nextSegment s = .broken fault) : fault.ShownIn s := by
  rw [nextSegment] at h
  rw [← takeFiller_append s]
  have hf : ∀ c ∈ (takeFiller s).2.head?, isFiller c = false := fun _ hc => stop_of_dropWhile hc
  generalize (takeFiller s).1 = before, (takeFiller s).2 = tail at h hf ⊢
  cases tail with
  | nil => cases h
  | cons c tail =>
    rw [readSegment] at h
    split at h
    · cases h
    · next hb =>
      split at h
      · next ha => subst ha; exact shownIn_of_readAtRule h
      · split at h
        · next hm =>
          obtain ⟨rfl, hs⟩ := hm
          obtain ⟨tail, rfl⟩ := List.head?_eq_some_iff.mp hs
          exact shownIn_of_readComment h
        · exact shownIn_of_readStatement (hf c rfl) hb h

end

/-! ### Nesting -/

theorem exists_tail_of_segments (s : Text) :
    ∃ tail, printSegments (segments s).1 ++ tail = s ∧ segments tail = ([], (segments s).2) := by
  induction s using segments.induct with
  | case1 s segment rest hn _ ih =>
    obtain ⟨tail, hp, ht⟩ := ih
    rw [segments_of_segment hn]
    refine ⟨tail, ?_, ht⟩
    rw [printSegments, List.append_assoc, hp, nextSegment_print hn]
  | case2 s after hn =>
    refine ⟨s, ?_, ?_⟩ <;> rw [segments_of_finished hn]
    rfl
  | case3 s fault hn =>
    refine ⟨s, ?_, ?_⟩ <;> rw [segments_of_broken hn]
    rfl

theorem nextSegment_of_segments_nil {s : Text} {fault : Fault}
    (h : segments s = ([], .broken fault)) : nextSegment s = .broken fault := by
  cases hn : nextSegment s with
  | segment segment rest => rw [segments_of_segment hn] at h; cases h
  | finished after => rw [segments_of_finished hn] at h; cases h
  | broken f => rw [segments_of_broken hn] at h; cases h; rfl

theorem exists_rest_of_segments_cons {s : Text} {segment : Segment} {later : List Segment}
    (h : (segments s).1 = segment :: later) :
    ∃ rest, nextSegment s = .segment segment rest ∧ (segments rest).1 = later := by
  cases hn : nextSegment s with
  | segment first rest =>
    rw [segments_of_segment hn] at h
    obtain ⟨rfl, hr⟩ := List.cons.inj h
    exact ⟨rest, rfl, hr⟩
  | finished after => rw [segments_of_finished hn] at h; cases h
  | broken fault => rw [segments_of_broken hn] at h; cases h

/-- In front of a closing brace a text can end. -/
theorem readable_of_closing {s before : Text} {earlier later : List Segment}
    (h : (segments s).1 = earlier ++ .closing before :: later) : Readable before earlier := by
  induction earlier generalizing s with
  | nil =>
    obtain ⟨rest, hn, -⟩ := exists_rest_of_segments_cons h
    exact nextSegment_eq_finished_iff.mpr (before_of_nextSegment hn)
  | cons segment earlier ih =>
    rw [List.cons_append] at h
    obtain ⟨rest, hn, hr⟩ := exists_rest_of_segments_cons h
    refine ⟨nextSegment_congr hn (Or.inr fun c hc => ?_), ih hr⟩
    obtain ⟨tail, hp, -⟩ := exists_tail_of_segments rest
    have hx : rest = (printSegments earlier ++ before) ++ ('}' :: (printSegments later ++ tail)) := by
      rw [← hp, hr, printSegments_append, printSegments, Segment.print]
      simp
    rw [hx, List.head?_append, Option.mem_def.mp hc]
    rfl

namespace Nesting

/-- Whether a text has been read, and the brace of each open block stands in it. -/
structure Marks (n : Nesting) (text : Text) : Prop where
  position : n.position = text.byteLength
  braces : ∀ block ∈ n.blocks, ∃ left right : Text, left ++ '{' :: right = text ∧
    left.byteLength = block.brace

theorem Marks.add {n m : Nesting} {text : Text} {segment : Segment} (h : n.Marks text)
    (ha : n.add segment = .ok m) : m.Marks (text ++ segment.print) := by
  have hp : m.position = (text ++ segment.print).byteLength := by
    rw [position_add ha, h.position, byteLength_append]
  have hold : ∀ block ∈ n.blocks, ∃ left right : Text, left ++ '{' :: right = text ++ segment.print ∧
      left.byteLength = block.brace := by
    intro block hb
    obtain ⟨left, right, ht, hl⟩ := h.braces block hb
    exact ⟨left, right ++ segment.print, by rw [← ht]; simp, hl⟩
  refine ⟨hp, ?_⟩
  cases segment with
  | leaf content layout => cases ha; exact hold
  | opening head layout =>
    cases ha
    refine List.forall_mem_cons.mpr ⟨⟨text ++ head.print layout, [], ?_, ?_⟩, hold⟩
    · rw [Segment.print, List.append_assoc]
    · rw [byteLength_append, h.position]
  | closing before =>
    rw [Nesting.add, closeBlock] at ha
    cases hb : n.blocks with
    | nil => rw [hb] at ha; cases ha
    | cons block outer =>
      rw [hb] at ha hold
      cases ha
      exact (List.forall_mem_cons.mp hold).2

theorem Marks.addAll {n m : Nesting} {text : Text} {segments : List Segment} (h : n.Marks text)
    (ha : n.addAll segments = .ok m) : m.Marks (text ++ printSegments segments) := by
  induction segments generalizing n text with
  | nil =>
    cases ha
    rw [printSegments, List.append_nil]
    exact h
  | cons segment rest ih =>
    rw [Nesting.addAll] at ha
    cases hn : n.add segment with
    | error fault => rw [hn] at ha; cases ha
    | ok next =>
      rw [hn] at ha
      have hr := ih (h.add hn) ha
      rwa [List.append_assoc] at hr

theorem closing_of_addAll {n : Nesting} {segments : List Segment} {fault : Fault}
    (h : n.addAll segments = .error fault) :
    ∃ earlier before later m, segments = earlier ++ .closing before :: later ∧
      n.addAll earlier = .ok m ∧ m.blocks = [] ∧
        fault = .unexpectedCloseBrace (m.position + before.byteLength) := by
  induction segments generalizing n with
  | nil => cases h
  | cons segment rest ih =>
    rw [addAll] at h
    cases ha : n.add segment with
    | ok next =>
      rw [ha] at h
      obtain ⟨earlier, before, later, m, he, hm, hb, hf⟩ := ih h
      refine ⟨segment :: earlier, before, later, m, by rw [he]; rfl, ?_, hb, hf⟩
      rw [addAll, ha]
      exact hm
    | error f =>
      rw [ha] at h
      cases h
      cases segment with
      | leaf content layout => cases ha
      | opening head layout => cases ha
      | closing before =>
        rw [add, closeBlock] at ha
        cases hb : n.blocks with
        | nil =>
          rw [hb] at ha
          cases ha
          exact ⟨[], before, rest, n, rfl, rfl, hb, rfl⟩
        | cons block outer => rw [hb] at ha; cases ha

end Nesting

/-- In front of a closing brace too many there is a whole sheet. -/
theorem parse_of_closing {s before : Text} {earlier later : List Segment} {m : Nesting}
    (h : (segments s).1 = earlier ++ .closing before :: later)
    (ha : Nesting.addAll {} earlier = .ok m) (hb : m.blocks = []) :
    parse (printSegments earlier ++ before) = .ok { nodes := m.nodes, after := before } := by
  have hs := segments_eq_iff.mpr ⟨rfl, readable_of_closing h⟩
  refine parse_eq_ok_iff.mpr ⟨m, ?_, ?_⟩ <;> rw [hs]
  · exact ha
  · rw [Nesting.finish, hb]

/-- A text that is no sheet has its fault at the place that is reported. -/
theorem shown_of_parse {s : Text} {fault : Fault} (h : parse s = .error fault) :
    ∃ before rest, before ++ rest = s ∧ before.byteLength = fault.offset ∧
      fault.Shown before rest := by
  obtain ⟨tail, hp, ht⟩ := exists_tail_of_segments s
  have hstart : Nesting.Marks {} [] := ⟨rfl, List.forall_mem_nil _⟩
  rw [parse] at h
  cases ha : Nesting.addAll {} (segments s).1 with
  | error f =>
    simp only [ha] at h
    cases h
    obtain ⟨earlier, before, later, m, he, hm, hb, rfl⟩ := Nesting.closing_of_addAll ha
    have hposition : m.position = (printSegments earlier).byteLength := (hstart.addAll hm).position
    rw [he, printSegments_append, printSegments, Segment.print] at hp
    refine ⟨printSegments earlier ++ before, '}' :: (printSegments later ++ tail), ?_, ?_, rfl, _,
      parse_of_closing he hm hb⟩
    · rw [← hp]
      simp
    · rw [byteLength_append, Fault.offset, hposition]
  | ok n =>
    simp only [ha] at h
    obtain ⟨hposition, hbraces⟩ := hstart.addAll ha
    rw [List.nil_append] at hposition hbraces
    cases hend : (segments s).2 with
    | broken f =>
      rw [hend] at h ht
      cases h
      obtain ⟨front, rest, hr, hl, hs⟩ :=
        (shownIn_of_nextSegment (nextSegment_of_segments_nil ht)).behind (printSegments (segments s).1)
      rw [← hposition] at hl hs
      exact ⟨front, rest, hr.trans hp, hl, hs front⟩
    | finished after =>
      rw [hend, Nesting.finish] at h
      cases hb : n.blocks with
      | nil => rw [hb] at h; cases h
      | cons block outer =>
        rw [hb] at h hbraces
        cases h
        obtain ⟨left, right, hx, hl⟩ := hbraces block List.mem_cons_self
        exact ⟨left, '{' :: (right ++ tail), by rw [← hp, ← hx]; simp, hl, rfl⟩

def surplusText : Text :=
  "@e\x7bf:'\\'\x7d'\x7d\u3000g:h\x7d".toList

theorem shown_of_parse_surplus :
    parse surplusText = .error (.unexpectedCloseBrace 17) ∧
      ∃ before rest : Text, before ++ rest = surplusText ∧ before.byteLength = 17 ∧
        Fault.Shown before rest (.unexpectedCloseBrace 17) := by
  have h : parse surplusText = .error (.unexpectedCloseBrace 17) := by cbv
  exact ⟨h, shown_of_parse h⟩

end StyleValues
