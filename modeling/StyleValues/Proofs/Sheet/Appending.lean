import StyleValues.Proofs.Sheet.Legibility

/-!
# Texts put together

A text whose last statement is ended is read before a second text without a
look at that one, so the nodes of the two are put together. What follows the
last node of the first text stands in front of the first node of the second.
A fault of the second text is found at its place, further on by the length of
the first text.
-/

set_option autoImplicit false

namespace StyleValues

open Text

def Segment.indented (space : Text) : Segment → Segment
  | .leaf content layout => .leaf content { layout with before := space ++ layout.before }
  | .opening head layout => .opening head { layout with before := space ++ layout.before }
  | .closing before => .closing (space ++ before)

def Found.indented (space : Text) : Found → Found
  | .segment next rest => .segment (next.indented space) rest
  | .finished after => .finished (space ++ after)
  | .broken fault => .broken (fault.shift space.byteLength)

def indentFirst (space : Text) : List Segment × Ending → List Segment × Ending
  | (segment :: rest, ending) => (segment.indented space :: rest, ending)
  | ([], .finished after) => ([], .finished (space ++ after))
  | ([], .broken fault) => ([], .broken (fault.shift space.byteLength))

def Node.indented (space : Text) (n : Node) : Node := n.withBefore (space ++ n.layout.before)

def Stylesheet.indented (space : Text) (sheet : Stylesheet) : Stylesheet :=
  match sheet.nodes with
  | [] => { sheet with after := space ++ sheet.after }
  | n :: rest => { sheet with nodes := n.indented space :: rest }

/-- The nodes of both sheets. What follows the last node of the first sheet stands in front of the
first node of the second. -/
def Stylesheet.append (s t : Stylesheet) : Stylesheet :=
  { t.indented s.after with nodes := s.nodes ++ (t.indented s.after).nodes }

/-! ### White space in front -/

section
variable (space before s : Text)

theorem readComment_indented :
    readComment (space ++ before) s = (readComment before s).indented space := by
  rw [readComment, readComment]
  cases takeComment? s with
  | none => simp [Found.indented, Fault.shift, byteLength_append]
  | some parts => rfl

theorem atRuleLayout_indented (body : Text) :
    atRuleLayout (space ++ before) body =
      { atRuleLayout before body with before := space ++ (atRuleLayout before body).before } := by
  rw [atRuleLayout, atRuleLayout]
  split <;> rfl

theorem readAtRule_indented :
    readAtRule (space ++ before) s = (readAtRule before s).indented space := by
  rw [readAtRule, readAtRule]
  cases takeAtKeyword? s with
  | none => simp [Found.indented, Fault.shift, byteLength_append]
  | some parts =>
    obtain ⟨name, tail⟩ := parts
    cases hc : cutStatement tail with
    | error fault =>
      simp [hc, Found.indented, Fault.shift_shift, byteLength_append, Nat.add_assoc]
    | ok cut =>
      simp only [hc, atRuleLayout_indented]
      cases cut.terminator <;> rfl

theorem readDeclaration_indented (body rest : Text) (semicolon : Bool) :
    readDeclaration (space ++ before) body semicolon rest =
      (readDeclaration before body semicolon rest).indented space := by
  rw [readDeclaration, readDeclaration, declarationOf?, declarationOf?]
  cases splitAtColon? body with
  | none => simp [Found.indented, Fault.shift, byteLength_append]
  | some parts =>
    by_cases hp : (trimEnd parts.1).isEmpty
    · simp [hp, Found.indented, Fault.shift, byteLength_append]
    · simp [hp, Found.indented, Segment.indented]

theorem readStatement_indented :
    readStatement (space ++ before) s = (readStatement before s).indented space := by
  rw [readStatement, readStatement]
  cases cutStatement s with
  | error fault => simp [Found.indented, Fault.shift_shift, byteLength_append]
  | ok cut =>
    cases ht : cut.terminator with
    | openBrace => simp [ht, Found.indented, Segment.indented]
    | semicolon => simp only [ht, readDeclaration_indented]
    | closeBrace => simp only [ht, readDeclaration_indented]
    | endOfText => simp only [ht, readDeclaration_indented]

theorem readSegment_indented :
    readSegment (space ++ before) s = (readSegment before s).indented space := by
  cases s with
  | nil => rfl
  | cons c s =>
    rw [readSegment, readSegment]
    split
    · rfl
    · split
      · exact readAtRule_indented space before (c :: s)
      · split
        · exact readComment_indented space before (c :: s)
        · exact readStatement_indented space before (c :: s)

end

section
variable {space : Text}

theorem nextSegment_indented (h : space.all isFiller) (s : Text) :
    nextSegment (space ++ s) = (nextSegment s).indented space := by
  have hs : takeFiller (space ++ s) = (space ++ (takeFiller s).1, (takeFiller s).2) := by
    rw [List.all_eq_true] at h
    rw [takeFiller, List.takeWhile_append_of_pos h, List.dropWhile_append_of_pos h]
    rfl
  rw [nextSegment, hs]
  exact readSegment_indented space (takeFiller s).1 (takeFiller s).2

/-- Only the first segment knows what stands in front of a text. -/
theorem segments_indented (h : space.all isFiller) (s : Text) :
    segments (space ++ s) = indentFirst space (segments s) := by
  have hn := nextSegment_indented h s
  cases hf : nextSegment s with
  | segment segment rest =>
    rw [hf] at hn
    rw [segments_of_segment hf, segments_of_segment hn]
    rfl
  | finished after =>
    rw [hf] at hn
    rw [segments_of_finished hf, segments_of_finished hn]
    rfl
  | broken fault =>
    rw [hf] at hn
    rw [segments_of_broken hf, segments_of_broken hn]
    rfl

end

theorem indentFirst_segmentsOf (space : Text) (sheet : Stylesheet) :
    indentFirst space (segmentsOf sheet.nodes, .finished sheet.after) =
      (segmentsOf (sheet.indented space).nodes, .finished (sheet.indented space).after) := by
  obtain ⟨nodes, after⟩ := sheet
  rcases nodes with _ | ⟨⟨content, layout⟩ | ⟨head, children, layout⟩, rest⟩ <;> rfl

/-! ### A second text behind the first -/

/-- The segments of a text stay if another one is put behind it, as long as the last of them is ended.
The others have a closing brace behind them if they are not. -/
theorem segments_append {s after : Text} {read : List Segment}
    (h : segments s = (read, .finished after))
    (he : ∀ segment, read.getLast? = some segment → segment.ends) (t : Text) :
    segments (s ++ t) = (read ++ (segments (after ++ t)).1, (segments (after ++ t)).2) := by
  induction s using segments.induct generalizing read with
  | case1 s segment rest hn _ ih =>
    rw [segments_of_segment hn] at h
    obtain ⟨rfl, hr⟩ := Prod.mk.inj h
    have hnext : nextSegment (segment.print ++ (rest ++ t)) = .segment segment (rest ++ t) := by
      refine nextSegment_congr hn ?_
      cases rest with
      | nil =>
        have hs : segments [] = ([], .finished []) := segments_of_finished rfl
        exact Or.inl (he segment (by rw [hs]; rfl))
      | cons c rest => exact Or.inr fun _ hc => hc
    have hlast : ∀ last, (segments rest).1.getLast? = some last → last.ends := by
      intro last hl
      refine he last ?_
      rw [List.getLast?_cons, hl, Option.getD_some]
    rw [← nextSegment_print hn, List.append_assoc, segments_of_segment hnext,
      ih (Prod.ext rfl hr) hlast, List.cons_append]
  | case2 s after' hn =>
    rw [segments_of_finished hn] at h
    cases h
    rw [nextSegment_finished hn, List.nil_append]
  | case3 s fault hn =>
    rw [segments_of_broken hn] at h
    cases h

theorem getLast?_segmentsOf (nodes : List Node) :
    (segmentsOf nodes).getLast?.map Segment.ends = nodes.getLast?.map Node.ends := by
  rcases List.eq_nil_or_concat nodes with rfl | ⟨earlier, n, rfl⟩
  · rfl
  · have hn : segmentsOf [n] = n.segments := List.append_nil _
    rw [List.concat_eq_append, segmentsOf_append, hn, List.getLast?_concat]
    rcases n with ⟨content, layout⟩ | ⟨head, children, layout⟩
    · rw [Node.segments, List.getLast?_concat]
      rfl
    · rw [Node.segments, ← List.cons_append, ← List.append_assoc, List.getLast?_concat]
      rfl

theorem head_print_indented (space : Text) (head : Head) (layout : Layout) :
    head.print { layout with before := space ++ layout.before } = space ++ head.print layout := by
  cases head <;> simp [Head.print]

theorem segment_print_indented (space : Text) (segment : Segment) :
    (segment.indented space).print = space ++ segment.print := by
  cases segment with
  | leaf content layout =>
    cases content <;> simp [Segment.indented, Segment.print, Leaf.print, Layout.terminator]
  | opening head layout => simp [Segment.indented, Segment.print, head_print_indented]
  | closing before => simp [Segment.indented, Segment.print]

theorem segment_indented_nil (segment : Segment) : segment.indented [] = segment := by
  cases segment <;> rfl

namespace Nesting

structure Behind (k : Nat) (n m : Nesting) : Prop where
  position : m.position = k + n.position
  braces : m.blocks.map OpenBlock.brace = n.blocks.map fun block => k + block.brace

/-- Both nestings go on, or there is the same fault in both, `k` bytes apart. -/
inductive Apart (k : Nat) : Except Fault Nesting → Except Fault Nesting → Prop
  | ok {n m : Nesting} : Behind k n m → Apart k (.ok n) (.ok m)
  | error (fault : Fault) : Apart k (.error fault) (.error (fault.shift k))

section
variable {k : Nat} {n m : Nesting}

theorem add_indented (space : Text) (hp : m.position + space.byteLength = k + n.position)
    (hb : m.blocks.map OpenBlock.brace = n.blocks.map fun block => k + block.brace)
    (segment : Segment) : Apart k (n.add segment) (m.add (segment.indented space)) := by
  have hq : m.position + (segment.indented space).print.byteLength =
      k + (n.position + segment.print.byteLength) := by
    rw [segment_print_indented, byteLength_append]
    omega
  cases segment with
  | leaf content layout => exact .ok ⟨hq, hb⟩
  | opening head layout =>
    refine .ok ⟨hq, ?_⟩
    have hh : m.position + (head.print { layout with before := space ++ layout.before }).byteLength =
        k + (n.position + (head.print layout).byteLength) := by
      rw [head_print_indented, byteLength_append]
      omega
    simp only [advance, openBlock, List.map_cons, hb, hh]
  | closing before =>
    rw [Segment.indented, add, add, closeBlock, closeBlock]
    cases hn : n.blocks with
    | nil =>
      rw [hn, List.map_nil, List.map_eq_nil_iff] at hb
      have hf : m.position + (space ++ before).byteLength = k + (n.position + before.byteLength) := by
        rw [byteLength_append]
        omega
      rw [hb]
      simp only [Except.map, hf]
      exact .error (.unexpectedCloseBrace (n.position + before.byteLength))
    | cons block outer =>
      rw [hn, List.map_cons] at hb
      obtain ⟨block', outer', hm, -, ho⟩ := List.map_eq_cons_iff.mp hb
      rw [hm]
      exact .ok ⟨hq, ho⟩

theorem addAll_behind (h : Behind k n m) (segments : List Segment) :
    Apart k (n.addAll segments) (m.addAll segments) := by
  induction segments generalizing n m with
  | nil => exact .ok h
  | cons segment rest ih =>
    have hs : Apart k (n.add segment) (m.add segment) := by
      have hi := add_indented [] h.position h.braces segment
      rwa [segment_indented_nil] at hi
    rw [addAll, addAll]
    generalize n.add segment = next, m.add segment = next' at hs
    cases hs with
    | ok hn => exact ih hn
    | error fault => exact .error fault

theorem finish_behind (h : Behind k n m) {ending : Ending} {fault : Fault}
    (hf : n.finish ending = .error fault) : m.finish ending = .error (fault.shift k) := by
  cases ending with
  | broken f =>
    cases hf
    rw [finish, Fault.shift_shift, h.position]
  | finished after =>
    rw [finish] at hf ⊢
    have hb := h.braces
    cases hn : n.blocks with
    | nil => rw [hn] at hf; cases hf
    | cons block outer =>
      rw [hn] at hf hb
      cases hf
      obtain ⟨block', outer', hm, he, -⟩ := List.map_eq_cons_iff.mp hb
      rw [hm]
      simp only [he]
      rfl

end

theorem position_add {n m : Nesting} {segment : Segment} (h : n.add segment = .ok m) :
    m.position = n.position + segment.print.byteLength := by
  cases segment with
  | leaf content layout => cases h; rfl
  | opening head layout => cases h; rfl
  | closing before =>
    rw [add, closeBlock] at h
    split at h <;> cases h
    rfl

theorem position_addAll {n m : Nesting} {segments : List Segment} (h : n.addAll segments = .ok m) :
    m.position = n.position + (printSegments segments).byteLength := by
  induction segments generalizing n with
  | nil => cases h; rfl
  | cons segment rest ih =>
    rw [addAll] at h
    cases ha : n.add segment with
    | error fault => rw [ha] at h; cases h
    | ok next =>
      rw [ha] at h
      rw [ih h, position_add ha, printSegments, byteLength_append, Nat.add_assoc]

def complete (n : Nesting) (read : List Segment × Ending) : Except Fault Stylesheet :=
  match n.addAll read.1 with
  | .ok m => m.finish read.2
  | .error fault => .error fault

theorem complete_append {n m : Nesting} {earlier : List Segment} (h : n.addAll earlier = .ok m)
    (read : List Segment × Ending) :
    n.complete (earlier ++ read.1, read.2) = m.complete read := by
  rw [complete, addAll_append, h]
  rfl

/-- A fault of a text is a fault behind any other one that leaves no block open. -/
theorem complete_indentFirst {m : Nesting} {space : Text} (hb : m.blocks = [])
    {read : List Segment × Ending} {fault : Fault} (h : complete {} read = .error fault) :
    m.complete (indentFirst space read) = .error (fault.shift (m.position + space.byteLength)) := by
  obtain ⟨segments, ending⟩ := read
  cases segments with
  | nil =>
    cases ending with
    | finished after => cases h
    | broken f =>
      cases h
      rw [Fault.shift_shift]
      exact congrArg Except.error (Fault.shift_shift m.position space.byteLength f)
  | cons segment rest =>
    have hs : Apart (m.position + space.byteLength) (add {} segment) (m.add (segment.indented space)) :=
      add_indented _ rfl (by rw [hb]; rfl) segment
    rw [complete, addAll] at h
    rw [indentFirst, complete, addAll]
    generalize add {} segment = next, m.add (segment.indented space) = next' at h hs
    cases hs with
    | error f => cases h; rfl
    | @ok n m' hn =>
      have hr := addAll_behind hn rest
      simp only at h ⊢
      generalize n.addAll rest = last, m'.addAll rest = last' at h hr
      cases hr with
      | error f => cases h; rfl
      | ok hl => exact finish_behind hl h

end Nesting

/-- A text whose last statement is ended can be read before another one is put behind it: the nodes
of both are put together, and a fault of the second text is found the length of the first one
further on. -/
theorem parse_append {s : Text} {sheet : Stylesheet} (h : parse s = .ok sheet)
    (he : ∀ n, sheet.nodes.getLast? = some n → n.ends) (t : Text) :
    parse (s ++ t) =
      match parse t with
      | .ok more => .ok (sheet.append more)
      | .error fault => .error (fault.shift s.byteLength) := by
  have hs := parse_eq_ok_iff_segments.mp h
  have hf : sheet.after.all isFiller := (parse_eq_ok_iff_legible.mp h).2.2.filler
  have hl : ∀ segment, (segmentsOf sheet.nodes).getLast? = some segment → segment.ends := by
    intro segment hl
    have hm := getLast?_segmentsOf sheet.nodes
    rw [hl, Option.map_some] at hm
    obtain ⟨n, hn, hx⟩ := Option.map_eq_some_iff.mp hm.symm
    rw [← hx]
    exact he n hn
  have ht : segments (s ++ t) = (segmentsOf sheet.nodes ++ (indentFirst sheet.after (segments t)).1,
      (indentFirst sheet.after (segments t)).2) := by
    rw [segments_append hs hl, segments_indented hf]
  cases hp : parse t with
  | ok more =>
    refine parse_eq_ok_iff_segments.mpr ?_
    rw [ht, parse_eq_ok_iff_segments.mp hp, indentFirst_segmentsOf, ← segmentsOf_append]
    rfl
  | error fault =>
    obtain ⟨m, ha, hb, -⟩ := Nesting.addAll_segmentsOf {} sheet.nodes
    have hm : m.position + sheet.after.byteLength = s.byteLength := by
      have hq := Nesting.position_addAll ha
      have hx := segments_print (s := s) (by rw [hs])
      rw [hs] at hx
      rw [hq, ← hx, byteLength_append, Nat.zero_add]
    have hc : parse (s ++ t) = m.complete (indentFirst sheet.after (segments t)) := by
      rw [← Nesting.complete_append ha, ← ht]
      rfl
    rw [hc, Nesting.complete_indentFirst hb hp, hm]

theorem parse_append_broken :
    ∃ sheet, parse "a\x7bb:c\x7d ;".toList = .ok sheet ∧
      (∀ n, sheet.nodes.getLast? = some n → n.ends) ∧
      parse ("a\x7bb:c\x7d ;".toList ++ " \u3000@d e\x7bf".toList) = .error (.unknownWord ['f'] 17) :=
  ⟨{ nodes := [.block (.rule ['a'])
      [.leaf (.declaration ['b'] ['c']) { between := [':'] }] {}], after := [' ', ';'] },
    by cbv, by simp [Node.ends, Node.opening, Segment.ends],
    (parse_append (by cbv) (by simp [Node.ends, Node.opening, Segment.ends]) _).trans (by cbv)⟩

end StyleValues
