import StyleValues.Proofs.Sheet.Forest
import StyleValues.Proofs.Sheet.Locality

/-!
# Which trees are read from their texts

A printed tree is read as that very tree if each node is read from its own
text, and if no node without an end of its own stands in front of anything but
a closing brace or the end of the text. Both are also necessary
(`parse_eq_ok_iff_legible`).
-/

set_option autoImplicit false

namespace StyleValues

/-- All of a leaf, or the part of a block in front of its children. -/
def Node.opening : Node → Segment
  | .leaf content layout => .leaf content layout
  | .block head _ layout => .opening head { layout with after := [] }

def Node.ends (n : Node) : Bool := n.opening.ends

/-- A segment with as much of what follows it as its reading can depend on. -/
structure Placed where
  segment : Segment
  next : Text
deriving DecidableEq, Repr

def Placed.ReadsBack (p : Placed) : Prop :=
  nextSegment (p.segment.print ++ p.next) = .segment p.segment p.next

instance (p : Placed) : Decidable p.ReadsBack := inferInstanceAs (Decidable (_ = _))

mutual

def Node.placed (next : Text) : Node → List Placed
  | .leaf content layout => [⟨.leaf content layout, next⟩]
  | .block head children layout =>
    ⟨.opening head { layout with after := [] }, next⟩ :: placedIn ['}'] children

/-- The segments of all nodes without the closing braces. Behind a node in a block there is its closing
brace, and at the top level the end of the text. -/
def placedIn (next : Text) : List Node → List Placed
  | [] => []
  | n :: rest => n.placed next ++ placedIn next rest

end

def Legible (next : Text) (nodes : List Node) : Prop := ∀ p ∈ placedIn next nodes, p.ReadsBack

mutual

def Node.Arranged : Node → Prop
  | .leaf _ _ => True
  | .block _ children layout => Arranged layout.after children

/-- Nothing follows a node without an end of its own, and only white space and semicolons
follow the last node. -/
def Arranged (after : Text) : List Node → Prop
  | [] => after.all isFiller
  | n :: rest => (n.ends ∨ rest = [] ∧ after = []) ∧ n.Arranged ∧ Arranged after rest

end

section
variable (next : Text) (rest : List Node) (layout : Layout)

theorem legible_leaf (content : Leaf) : Legible next (.leaf content layout :: rest) ↔
    Placed.ReadsBack ⟨.leaf content layout, next⟩ ∧ Legible next rest :=
  List.forall_mem_cons

theorem legible_block (head : Head) (children : List Node) :
    Legible next (.block head children layout :: rest) ↔
      Placed.ReadsBack ⟨.opening head { layout with after := [] }, next⟩ ∧
        Legible ['}'] children ∧ Legible next rest := by
  rw [Legible, placedIn, Node.placed, List.cons_append, List.forall_mem_cons, List.forall_mem_append]
  rfl

end

section
variable {next after : Text} {nodes : List Node}

theorem legible_leaf_iff {content : Leaf} {layout : Layout} :
    Legible next [.leaf content layout] ↔ Placed.ReadsBack ⟨.leaf content layout, next⟩ :=
  List.forall_mem_singleton

theorem placedIn_append (next : Text) (ms ns : List Node) :
    placedIn next (ms ++ ns) = placedIn next ms ++ placedIn next ns := by
  induction ms with
  | nil => rfl
  | cons m ms ih => rw [List.cons_append, placedIn, placedIn, ih, List.append_assoc]

theorem legible_append {ms ns : List Node} :
    Legible next (ms ++ ns) ↔ Legible next ms ∧ Legible next ns := by
  rw [Legible, placedIn_append, List.forall_mem_append]
  rfl

theorem legible_cons {n : Node} : Legible next (n :: nodes) ↔ Legible next [n] ∧ Legible next nodes :=
  @legible_append next [n] nodes

theorem Legible.of_mem (h : Legible next nodes) {n : Node} (hn : n ∈ nodes) : Legible next [n] := by
  obtain ⟨front, rest, rfl⟩ := List.append_of_mem hn
  exact (legible_cons.mp (legible_append.mp h).2).1

theorem Arranged.of_mem (h : Arranged after nodes) {n : Node} (hn : n ∈ nodes) : n.Arranged := by
  induction nodes with
  | nil => cases hn
  | cons m rest ih =>
    rcases List.mem_cons.mp hn with rfl | hn
    · exact h.2.1
    · exact ih h.2.2 hn

/-- Either all nodes have an end, or only the last one has none, and nothing follows it. -/
theorem Arranged.ends_or (h : Arranged after nodes) : (∀ n ∈ nodes, n.ends) ∨
    ∃ front c, nodes = front ++ [c] ∧ (∀ n ∈ front, n.ends) ∧ c.ends = false ∧ after = [] := by
  induction nodes with
  | nil => exact Or.inl (List.forall_mem_nil _)
  | cons n rest ih =>
    obtain ⟨hn, -, hr⟩ := h
    cases he : n.ends with
    | false =>
      obtain ⟨rfl, ha⟩ := hn.resolve_left (by rw [he]; exact Bool.false_ne_true)
      exact Or.inr ⟨[], n, rfl, List.forall_mem_nil _, he, ha⟩
    | true =>
      rcases ih hr with hall | ⟨front, c, rfl, hf, hc⟩
      · exact Or.inl (List.forall_mem_cons.mpr ⟨he, hall⟩)
      · exact Or.inr ⟨n :: front, c, rfl, List.forall_mem_cons.mpr ⟨he, hf⟩, hc⟩

end

/-! ### The segments of a tree -/

mutual

def Node.segments : Node → List Segment
  | .leaf content layout => [.leaf content layout]
  | .block head children layout =>
    .opening head { layout with after := [] } :: (segmentsOf children ++ [.closing layout.after])

def segmentsOf : List Node → List Segment
  | [] => []
  | n :: rest => n.segments ++ segmentsOf rest

end

theorem printSegments_append (s t : List Segment) :
    printSegments (s ++ t) = printSegments s ++ printSegments t := by
  induction s with
  | nil => rfl
  | cons segment s ih => rw [List.cons_append, printSegments, printSegments, ih, List.append_assoc]

theorem segmentsOf_append (ms ns : List Node) :
    segmentsOf (ms ++ ns) = segmentsOf ms ++ segmentsOf ns := by
  induction ms with
  | nil => rfl
  | cons m ms ih => rw [List.cons_append, segmentsOf, segmentsOf, ih, List.append_assoc]

theorem printSegments_segmentsOf (nodes : List Node) :
    printSegments (segmentsOf nodes) = printAll nodes := by
  induction nodes using forestInduction with
  | nil => rfl
  | leaf content layout rest ih =>
    rw [segmentsOf, printSegments_append, ih, printAll, Node.segments, printSegments, printSegments,
      List.append_nil]
    rfl
  | block head children layout rest ihc ihr =>
    rw [segmentsOf, printSegments_append, ihr, printAll, Node.segments, printSegments,
      printSegments_append, ihc]
    simp [Node.print, Segment.print, printSegments, Nesting.head_print_after]

def Segment.before : Segment → Text
  | .leaf _ layout => layout.before
  | .opening _ layout => layout.before
  | .closing before => before

/-- What is read in front of a brace has nothing behind it. -/
def Segment.Fresh : Segment → Prop
  | .opening _ layout => layout.after = []
  | _ => True

namespace Nesting

theorem addAll_segmentsOf (n : Nesting) (nodes : List Node) :
    ∃ m, n.addAll (segmentsOf nodes) = .ok m ∧ m.blocks = n.blocks ∧ m.nodes = n.nodes ++ nodes := by
  induction nodes using forestInduction generalizing n with
  | nil => exact ⟨n, rfl, rfl, (List.append_nil n.nodes).symm⟩
  | leaf content layout rest ih =>
    obtain ⟨m, ha, hb, hn⟩ := ih ((n.addLeaf content layout).advance (.leaf content layout))
    exact ⟨m, ha, hb, hn.trans (List.append_assoc n.nodes [.leaf content layout] rest)⟩
  | block head children layout rest ihc ihr =>
    obtain ⟨m, ha, hb, hn⟩ := ihc ((n.openBlock head { layout with after := [] }).advance
      (.opening head { layout with after := [] }))
    have hc : m.add (.closing layout.after) = .ok (advance
        { m with
          blocks := n.blocks
          nodes := n.nodes ++ [.block head children layout] } (.closing layout.after)) := by
      rw [add, closeBlock, hb, hn]
      rfl
    obtain ⟨k, hk, hkb, hkn⟩ := ihr (advance
        { m with
          blocks := n.blocks
          nodes := n.nodes ++ [.block head children layout] } (.closing layout.after))
    refine ⟨k, ?_, hkb, ?_⟩
    · rw [segmentsOf, Node.segments, List.cons_append, addAll, add]
      simp only
      rw [List.append_assoc, addAll_append, ha]
      simp only
      rw [List.singleton_append, addAll, hc]
      exact hk
    · rw [hkn]
      exact List.append_assoc n.nodes [.block head children layout] rest

def openSegments : List OpenBlock → List Segment
  | [] => []
  | block :: outer =>
    openSegments outer ++ (segmentsOf block.earlier ++ [.opening block.head block.layout])

def segments (n : Nesting) : List Segment := openSegments n.blocks ++ segmentsOf n.nodes

theorem add_segments {n m : Nesting} {segment : Segment} (h : n.add segment = .ok m)
    (hs : segment.Fresh) (hn : ∀ block ∈ n.blocks, block.layout.after = []) :
    m.segments = n.segments ++ [segment] ∧ ∀ block ∈ m.blocks, block.layout.after = [] := by
  cases segment with
  | leaf content layout =>
    cases h
    refine ⟨?_, hn⟩
    simp [advance, addLeaf, segments, segmentsOf_append, segmentsOf, Node.segments]
  | opening head layout =>
    cases h
    refine ⟨?_, List.forall_mem_cons.mpr ⟨hs, hn⟩⟩
    simp [advance, openBlock, segments, openSegments, segmentsOf]
  | closing before =>
    rw [add, closeBlock] at h
    cases hb : n.blocks with
    | nil => rw [hb] at h; cases h
    | cons block outer =>
      rw [hb] at h hn
      cases h
      obtain ⟨hl, ho⟩ := List.forall_mem_cons.mp hn
      have e : ({ block.layout with after := [] } : Layout) = block.layout := by rw [← hl]
      refine ⟨?_, ho⟩
      simp [advance, segments, hb, openSegments, segmentsOf_append, segmentsOf, Node.segments, e]

theorem addAll_segments {n m : Nesting} {segments : List Segment} (h : n.addAll segments = .ok m)
    (hs : ∀ segment ∈ segments, segment.Fresh) (hn : ∀ block ∈ n.blocks, block.layout.after = []) :
    m.segments = n.segments ++ segments := by
  induction segments generalizing n with
  | nil => cases h; exact (List.append_nil _).symm
  | cons segment rest ih =>
    rw [addAll] at h
    cases ha : n.add segment with
    | error fault => rw [ha] at h; cases h
    | ok next =>
      rw [ha] at h
      obtain ⟨hf, hr⟩ := List.forall_mem_cons.mp hs
      obtain ⟨e, hm⟩ := add_segments ha hf hn
      rw [ih h hr hm, e, List.append_assoc]
      rfl

end Nesting

/-- What a segment says of the text in front of it, and that nothing is known behind a brace. -/
theorem readSegment_fresh {before s rest : Text} {segment : Segment}
    (h : readSegment before s = .segment segment rest) :
    segment.before = before ∧ segment.Fresh := by
  have ha : ∀ body, (atRuleLayout before body).after = [] := by
    intro body
    rw [atRuleLayout]
    split <;> rfl
  have hb : ∀ body, (atRuleLayout before body).before = before :=
    fun body => (atRuleLayout_print before body).1
  have hd : ∀ body semicolon next, readDeclaration before body semicolon next =
      .segment segment rest → segment.before = before ∧ segment.Fresh := by
    intro body semicolon next h
    obtain ⟨-, hd⟩ := readDeclaration_eq h
    rw [declarationOf?] at hd
    split at hd
    · cases hd
    · split at hd <;> cases hd
      exact ⟨rfl, trivial⟩
  cases s with
  | nil => cases h
  | cons c tail =>
    rw [readSegment] at h
    split at h
    · cases h; exact ⟨rfl, trivial⟩
    · split at h
      · rw [readAtRule] at h
        split at h
        · cases h
        · split at h
          · cases h
          · simp only at h
            split at h <;> cases h
            · exact ⟨hb _, ha _⟩
            all_goals exact ⟨hb _, trivial⟩
      · split at h
        · rw [readComment] at h
          split at h <;> cases h
          exact ⟨rfl, trivial⟩
        · rw [readStatement] at h
          split at h
          · cases h
          · split at h
            · cases h; exact ⟨rfl, rfl⟩
            all_goals exact hd _ _ _ h

theorem before_of_nextSegment {s rest : Text} {segment : Segment}
    (h : nextSegment s = .segment segment rest) : segment.before.all isFiller := by
  rw [(readSegment_fresh h).1, List.all_eq_true]
  exact fun c hc => List.mem_takeWhile_imp hc

theorem parse_eq_ok_iff_segments {s : Text} {sheet : Stylesheet} :
    parse s = .ok sheet ↔ segments s = (segmentsOf sheet.nodes, .finished sheet.after) := by
  rw [parse_eq_ok_iff]
  constructor
  · rintro ⟨n, ha, hf⟩
    obtain ⟨after, he, hb, rfl⟩ := Nesting.finish_eq_ok hf
    have hs := Nesting.addAll_segments ha
      (forall_mem_segments (fun _ _ _ h => (readSegment_fresh h).2) s) fun _ hm => absurd hm List.not_mem_nil
    rw [Nesting.segments, hb] at hs
    exact Prod.ext hs.symm he
  · intro h
    obtain ⟨n, ha, hb, hn⟩ := Nesting.addAll_segmentsOf {} sheet.nodes
    refine ⟨n, by rw [h]; exact ha, ?_⟩
    rw [h, Nesting.finish, hb, hn]
    rfl

/-! ### Reading the segments again -/

def Readable (after : Text) : List Segment → Prop
  | [] => nextSegment after = .finished after
  | segment :: rest =>
    nextSegment (segment.print ++ (printSegments rest ++ after)) =
        .segment segment (printSegments rest ++ after) ∧
      Readable after rest

theorem segments_eq_iff {s after : Text} {read : List Segment} :
    segments s = (read, .finished after) ↔ printSegments read ++ after = s ∧ Readable after read := by
  constructor
  · intro h
    have hp := segments_print (s := s) (by rw [h])
    rw [h] at hp
    refine ⟨hp, ?_⟩
    clear hp
    induction s using segments.induct generalizing read with
    | case1 s segment rest hn _ ih =>
      rw [segments_of_segment hn] at h
      obtain ⟨h1, h2⟩ := Prod.mk.inj h
      have hr : segments rest = ((segments rest).1, .finished after) := Prod.ext rfl h2
      have hp := segments_print h2
      subst h1
      refine ⟨?_, ih hr⟩
      rw [hp, nextSegment_print hn]
      exact hn
    | case2 s after' hn =>
      rw [segments_of_finished hn] at h
      cases h
      obtain rfl := nextSegment_finished hn
      exact hn
    | case3 s fault hn =>
      rw [segments_of_broken hn] at h
      cases h
  · rintro ⟨rfl, h⟩
    induction read with
    | nil => exact segments_of_finished h
    | cons segment rest ih =>
      obtain ⟨hn, hr⟩ := h
      have hs := segments_of_segment hn
      rw [ih hr] at hs
      rw [printSegments, List.append_assoc]
      exact hs

theorem nextSegment_eq_finished_iff {after : Text} :
    nextSegment after = .finished after ↔ after.all isFiller := by
  rw [nextSegment, takeFiller]
  constructor
  · intro h
    exact all_of_dropWhile_eq_nil (readSegment_finished h).1
  · intro h
    rw [List.all_eq_true] at h
    obtain ⟨h1, h2⟩ := takeWhile_append_of_stop (p := isFiller) (s := after) (t := []) h
      (fun _ hc => by cases hc)
    rw [List.append_nil] at h1 h2
    rw [h1, h2]
    rfl

theorem nextSegment_closing_iff {before rest : Text} :
    nextSegment (before ++ '}' :: rest) = .segment (.closing before) rest ↔ before.all isFiller := by
  constructor
  · intro h
    exact before_of_nextSegment h
  · intro h
    rw [List.all_eq_true] at h
    obtain ⟨h1, h2⟩ := takeWhile_append_of_stop (p := isFiller) (s := before) (t := '}' :: rest) h
      (fun _ hc => by cases hc; decide)
    rw [nextSegment, takeFiller, h1, h2, readSegment, if_pos rfl]

/-- What stands behind a list of siblings: the end of the text, or the end of their block. `next` is
what each of them can see of it. -/
inductive Closing (after : Text) : Text → List Segment → Text → Prop
  | top : Closing after [] [] after
  | block (tail : List Segment) (behind : Text) :
    Closing after ['}'] (.closing after :: tail) behind

theorem Arranged.filler {after : Text} {nodes : List Node} (h : Arranged after nodes) :
    after.all isFiller := by
  induction nodes with
  | nil => exact h
  | cons n rest ih => exact ih h.2.2

theorem Node.segments_eq (n : Node) : ∃ more, n.segments = n.opening :: more := by
  cases n <;> exact ⟨_, rfl⟩

section
variable {next after behind : Text} {tail : List Segment}

theorem Closing.filler (h : Closing after next tail behind) (hr : Readable behind tail) :
    after.all isFiller := by
  cases h with
  | top => exact nextSegment_eq_finished_iff.mp hr
  | block => exact before_of_nextSegment hr.1

theorem Closing.head? (h : Closing after next tail behind) :
    (printSegments tail ++ behind).head? = (after ++ next).head? := by
  cases h with
  | top => rw [List.append_nil]; rfl
  | block =>
    rw [printSegments, Segment.print, List.append_assoc, List.append_assoc, List.head?_append,
      List.head?_append (l := after)]
    rfl

/-- A segment is read where it stands if it is read by itself, and if nothing follows it in case
that it has no end. -/
theorem nextSegment_iff (h : Closing after next tail behind) {segment : Segment} {rest : List Node}
    (hr : Readable behind (segmentsOf rest ++ tail)) :
    nextSegment (segment.print ++ (printSegments (segmentsOf rest ++ tail) ++ behind)) =
        .segment segment (printSegments (segmentsOf rest ++ tail) ++ behind) ↔
      nextSegment (segment.print ++ next) = .segment segment next ∧
        (segment.ends ∨ rest = [] ∧ after = []) := by
  constructor
  · intro hn
    cases he : segment.ends with
    | true => exact ⟨nextSegment_congr hn (Or.inl he), Or.inl rfl⟩
    | false =>
      have hh := head?_of_not_ends hn he
      -- White space would be seen there, and another node would be read as a closing brace or not at all.
      have hx : rest = [] ∧ after = [] := by
        cases rest with
        | nil =>
          refine ⟨rfl, ?_⟩
          have ha := h.filler hr
          rw [segmentsOf, List.nil_append, h.head?] at hh
          cases after with
          | nil => rfl
          | cons c after =>
            rw [List.all_cons, Bool.and_eq_true] at ha
            rcases hh with hh | hh
            · cases hh
            · cases hh
              exact absurd ha.1 (by decide)
        | cons n rest =>
          exfalso
          obtain ⟨more, hm⟩ := n.segments_eq
          rw [segmentsOf, hm, List.cons_append, List.cons_append] at hr hh
          have hf := hr.1
          rw [printSegments, List.append_assoc] at hh
          rcases hh with hh | hh
          · rw [List.head?_eq_none_iff.mp hh] at hf
            cases hf
          · obtain ⟨t, ht⟩ := List.head?_eq_some_iff.mp hh
            have hc : nextSegment ('}' :: t) = .segment (.closing []) t := rfl
            rw [ht, hc] at hf
            cases n <;> cases hf
      refine ⟨nextSegment_congr hn (Or.inr ?_), Or.inr hx⟩
      obtain ⟨rfl, rfl⟩ := hx
      exact fun c hc => h.head? ▸ hc
  · rintro ⟨hl, he | ⟨rfl, rfl⟩⟩
    · exact nextSegment_congr hl (Or.inl he)
    · exact nextSegment_congr hl (Or.inr fun c hc => h.head? ▸ hc)

theorem readable_segmentsOf (h : Closing after next tail behind) (nodes : List Node) :
    Readable behind (segmentsOf nodes ++ tail) ↔
      Legible next nodes ∧ Arranged after nodes ∧ Readable behind tail := by
  induction nodes using forestInduction generalizing next after tail with
  | nil =>
    constructor
    · intro hr
      exact ⟨List.forall_mem_nil _, h.filler hr, hr⟩
    · rintro ⟨-, -, hr⟩
      exact hr
  | leaf content layout rest ih =>
    have hs : segmentsOf (.leaf content layout :: rest) ++ tail =
        .leaf content layout :: (segmentsOf rest ++ tail) := rfl
    rw [hs, Readable, legible_leaf, Arranged]
    constructor
    · rintro ⟨hn, hr⟩
      obtain ⟨hl, ha⟩ := (nextSegment_iff h hr).mp hn
      obtain ⟨hlr, har, ht⟩ := (ih h).mp hr
      exact ⟨⟨hl, hlr⟩, ⟨ha, trivial, har⟩, ht⟩
    · rintro ⟨⟨hl, hlr⟩, ⟨ha, -, har⟩, ht⟩
      have hr := (ih h).mpr ⟨hlr, har, ht⟩
      exact ⟨(nextSegment_iff h hr).mpr ⟨hl, ha⟩, hr⟩
  | block head children layout rest ihc ihr =>
    -- The children stand in front of the closing brace of the block, whatever the block stands in.
    have hs : segmentsOf (.block head children layout :: rest) ++ tail =
        .opening head { layout with after := [] } ::
          (segmentsOf children ++ .closing layout.after :: (segmentsOf rest ++ tail)) := by
      rw [segmentsOf, Node.segments]
      simp
    have hb : Closing layout.after ['}'] (.closing layout.after :: (segmentsOf rest ++ tail)) behind :=
      .block _ behind
    rw [hs, Readable, legible_block, Arranged]
    constructor
    · rintro ⟨hn, hr⟩
      obtain ⟨hl, ha, -, hrr⟩ := (ihc hb).mp hr
      obtain ⟨hlr, har, ht⟩ := (ihr h).mp hrr
      exact ⟨⟨nextSegment_congr hn (Or.inl rfl), hl, hlr⟩, ⟨Or.inl rfl, ha, har⟩, ht⟩
    · rintro ⟨⟨hn, hl, hlr⟩, ⟨-, ha, har⟩, ht⟩
      have hrr := (ihr h).mpr ⟨hlr, har, ht⟩
      refine ⟨nextSegment_congr hn (Or.inl rfl), (ihc hb).mpr ⟨hl, ha, ?_, hrr⟩⟩
      rw [Segment.print, List.append_assoc]
      exact nextSegment_closing_iff.mpr ha.filler

end

/-- A sheet is what its text is read as if and only if it is legible and arranged. -/
theorem parse_eq_ok_iff_legible {s : Text} {sheet : Stylesheet} :
    parse s = .ok sheet ↔
      sheet.print = s ∧ Legible [] sheet.nodes ∧ Arranged sheet.after sheet.nodes := by
  have hr := readable_segmentsOf (@Closing.top sheet.after) sheet.nodes
  have hf : Arranged sheet.after sheet.nodes → Readable sheet.after [] :=
    fun ha => nextSegment_eq_finished_iff.mpr ha.filler
  rw [List.append_nil] at hr
  rw [parse_eq_ok_iff_segments, segments_eq_iff, printSegments_segmentsOf, hr]
  constructor
  · rintro ⟨hp, hl, ha, -⟩
    exact ⟨hp, hl, ha⟩
  · rintro ⟨hp, hl, ha⟩
    exact ⟨hp, hl, ha, hf ha⟩

end StyleValues
