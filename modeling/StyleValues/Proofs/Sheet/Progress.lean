import StyleValues.Proofs.Sheet.Cursor

/-!
# The cursor stays on the text and gets on

Reading with a cursor, with everything checked, comes to what `parse` comes to:
a turn of its loop reads one segment, and a nested call the segments up to the
brace that closes its block. So no source makes it take a slice off the
characters, and none holds it up.
-/

set_option autoImplicit false

namespace StyleValues

open Text

section
variable {source rest tail : Text} {position : Nat} {segment : Segment}

theorem restAt_segment (h : RestAt source position rest)
    (hn : nextSegment rest = .segment segment tail) :
    RestAt source (position + segment.print.byteLength) tail := by
  rw [← nextSegment_print hn] at h
  exact h.forward

theorem byteLength_print_closing (before : Text) :
    (Segment.closing before).print.byteLength = before.byteLength + 1 :=
  byteLength_append before ['}']

theorem byteLength_print_opening (head : Head) (layout : Layout) :
    (Segment.opening head layout).print.byteLength = (head.print layout).byteLength + 1 :=
  byteLength_append (head.print layout) ['{']

theorem lt_add_segment (position : Nat) (hn : nextSegment rest = .segment segment tail) :
    position < position + segment.print.byteLength :=
  Nat.lt_add_of_pos_right
    (Nat.pos_of_ne_zero fun h => nextSegment_ne_nil hn (byteLength_eq_zero h))

end

namespace Nesting

def resume (n : Nesting) (rest : Text) : Except Fault Stylesheet :=
  match n.addAll (StyleValues.segments rest).1 with
  | .ok m => m.finish (StyleValues.segments rest).2
  | .error fault => .error fault

variable {n : Nesting} {rest tail : Text}

theorem resume_of_segment {segment : Segment} (h : nextSegment rest = .segment segment tail) :
    n.resume rest = match n.add segment with
      | .ok m => m.resume tail
      | .error fault => .error fault := by
  rw [resume, segments_of_segment h, addAll]
  cases n.add segment <;> rfl

theorem resume_of_finished {after : Text} (h : nextSegment rest = .finished after) :
    n.resume rest = n.finish (.finished after) := by
  rw [resume, segments_of_finished h]
  rfl

theorem resume_of_broken {fault : Fault} (h : nextSegment rest = .broken fault) :
    n.resume rest = .error (fault.shift n.position) := by
  rw [resume, segments_of_broken h]
  rfl

def closed (block : OpenBlock) (outer : List OpenBlock) (nodes : List Node) (after : Text)
    (cursor : Nat) : Nesting where
  blocks := outer
  nodes := block.earlier ++ [.block block.head nodes { block.layout with after }]
  position := cursor

def read (source : Text) (n : Nesting) : Outcome (List Node × Text × Nat) :=
  nodesAt source (n.blocks.head?.map OpenBlock.brace) n.position n.nodes

/-- What the reader with a cursor returns for the rest of the innermost open block, told by what
reading on comes to. -/
def Settled (source : Text) (n : Nesting) (result : Except Fault Stylesheet) :
    Outcome (List Node × Text × Nat) → Prop
  | .ok (nodes, after, next) =>
    match n.blocks with
    | [] => result = .ok { nodes, after }
    | block :: outer => n.position < next ∧
        ∃ tail, RestAt source next tail ∧ result = (closed block outer nodes after next).resume tail
  | .fault fault => result = .error fault
  | .astray => False
  | .stuck => False

/-- A nesting that has been read on with the same blocks open is settled by what settles it. -/
theorem Settled.of_le {source : Text} {m : Nesting} {result : Except Fault Stylesheet}
    {outcome : Outcome (List Node × Text × Nat)} (h : m.Settled source result outcome)
    (hb : m.blocks = n.blocks) (hp : n.position ≤ m.position) : n.Settled source result outcome := by
  cases outcome with
  | ok found =>
    rw [Settled, hb] at h
    rw [Settled]
    cases hn : n.blocks with
    | nil => simpa only [hn] using h
    | cons block outer =>
      rw [hn] at h
      exact ⟨lt_of_le_of_lt hp h.1, h.2⟩
  | fault fault => exact h
  | astray => exact h
  | stuck => exact h

section
variable {source : Text}

theorem settled_finished {after : Text} (h : RestAt source n.position rest)
    (hn : nextSegment rest = .finished after) : n.Settled source (n.resume rest) (n.read source) := by
  rw [resume_of_finished hn, finish, read, nodesAt, turnAt_eq h, hn, Found.turn, Outcome.ok_bind]
  cases hb : n.blocks with
  | nil => simp only [Settled, hb, List.head?_nil, Option.map_none, Outcome.pure_eq]
  | cons block outer => rfl

theorem settled_broken {fault : Fault} (h : RestAt source n.position rest)
    (hn : nextSegment rest = .broken fault) : n.Settled source (n.resume rest) (n.read source) := by
  rw [read, nodesAt, turnAt_eq h, hn]
  exact resume_of_broken hn

theorem settled_closing {before : Text} (h : RestAt source n.position rest)
    (hn : nextSegment rest = .segment (.closing before) tail) :
    n.Settled source (n.resume rest) (n.read source) := by
  have htail := restAt_segment h hn
  have hlt := lt_add_segment n.position hn
  have hbrace : n.position + before.byteLength + 1 =
      n.position + (Segment.closing before).print.byteLength := by
    rw [byteLength_print_closing, Nat.add_assoc]
  rw [resume_of_segment hn, read, nodesAt, turnAt_eq h, hn, Found.turn, Outcome.ok_bind, add,
    closeBlock]
  cases hb : n.blocks with
  | nil => rfl
  | cons block outer =>
    simp only [List.head?_cons, Option.map_some, hbrace, moveTo_eq htail, Outcome.ok_bind,
      Outcome.pure_eq]
    rw [Settled, hb]
    exact ⟨hlt, tail, htail, rfl⟩

theorem settled_leaf {content : Leaf} {layout : Layout} {m : Nesting}
    (h : RestAt source n.position rest)
    (hn : nextSegment rest = .segment (.leaf content layout) tail)
    (hm : n.add (.leaf content layout) = .ok m)
    (hrest : m.Settled source (m.resume tail) (m.read source)) :
    n.Settled source (n.resume rest) (n.read source) := by
  have hlt := lt_add_segment n.position hn
  have hle := Nat.le.intro (restAt_segment h hn).length
  rw [resume_of_segment hn, hm, read, nodesAt, turnAt_eq h, hn, Found.turn, Outcome.ok_bind]
  cases hm
  dsimp only
  rw [if_pos ⟨hlt, hle⟩]
  exact hrest.of_le rfl (Nat.le_of_lt hlt)

theorem settled_opening {head : Head} {layout : Layout} {m : Nesting}
    (h : RestAt source n.position rest)
    (hn : nextSegment rest = .segment (.opening head layout) tail)
    (hm : n.add (.opening head layout) = .ok m)
    (hinner : m.Settled source (m.resume tail) (m.read source))
    (hrest : ∀ block outer nodes after next tail', m.blocks = block :: outer →
      n.position < next → RestAt source next tail' →
        (closed block outer nodes after next).Settled source
          ((closed block outer nodes after next).resume tail')
          ((closed block outer nodes after next).read source)) :
    n.Settled source (n.resume rest) (n.read source) := by
  have hlt := lt_add_segment n.position hn
  have htail := restAt_segment h hn
  have hbrace : n.position + (head.print layout).byteLength + 1 =
      n.position + (Segment.opening head layout).print.byteLength := by
    rw [byteLength_print_opening, Nat.add_assoc]
  have hle := Nat.le.intro htail.length
  rw [resume_of_segment hn, hm, read, nodesAt, turnAt_eq h, hn, Found.turn, Outcome.ok_bind]
  cases hm
  simp only [hbrace, moveTo_eq htail, Outcome.ok_bind]
  rw [if_pos ⟨hlt, hle⟩]
  have hcall : nodesAt source (some (n.position + (head.print layout).byteLength))
      (n.position + (Segment.opening head layout).print.byteLength) [] =
        read source ((n.openBlock head layout).advance (.opening head layout)) := rfl
  rw [hcall]
  cases hr : read source ((n.openBlock head layout).advance (.opening head layout)) with
  | ok found =>
    obtain ⟨children, after, next⟩ := found
    rw [hr] at hinner
    obtain ⟨hp, tail', ht, he⟩ := hinner
    have hnext : n.position < next := lt_trans hlt hp
    rw [Outcome.ok_bind]
    dsimp only
    rw [if_pos ⟨hnext, Nat.le.intro ht.length⟩, he]
    exact (hrest _ _ children after next tail' rfl hnext ht).of_le rfl (Nat.le_of_lt hnext)
  | fault fault =>
    rw [hr] at hinner
    exact hinner
  | astray =>
    rw [hr] at hinner
    exact hinner.elim
  | stuck =>
    rw [hr] at hinner
    exact hinner.elim

end

end Nesting

open Nesting in
/-- The reader with a cursor does what putting the segments in place does, from a nesting in
progress on. -/
theorem settled_nodesAt {source rest : Text} {n : Nesting} (h : RestAt source n.position rest) :
    n.Settled source (n.resume rest) (n.read source) := by
  induction hk : rest.byteLength using Nat.strong_induction_on generalizing n rest with
  | h k ih =>
    subst hk
    have hlength := h.length
    cases hn : nextSegment rest with
    | finished after => exact settled_finished h hn
    | broken fault => exact settled_broken h hn
    | segment segment tail =>
      have hlt := lt_add_segment n.position hn
      have htail := restAt_segment h hn
      have hrest := htail.length
      have hshorter : tail.byteLength < rest.byteLength := by omega
      cases segment with
      | closing before => exact settled_closing h hn
      | leaf content layout => exact settled_leaf h hn rfl (ih _ hshorter htail rfl)
      | opening head layout =>
        refine settled_opening h hn rfl (ih _ hshorter htail rfl) ?_
        intro block outer nodes after next tail' _ hnext ht
        have hlength' := ht.length
        have hshorter' : tail'.byteLength < rest.byteLength := by omega
        exact ih _ hshorter' ht rfl

/-- Reading with a cursor returns what `parse` does. -/
theorem checkedParse_eq_parse (source : Text) : checkedParse source = .ofExcept (parse source) := by
  have h : Nesting.Settled source {} (parse source) (nodesAt source none 0 []) :=
    settled_nodesAt (RestAt.start source)
  rw [checkedParse]
  cases hr : nodesAt source none 0 [] with
  | ok found =>
    obtain ⟨nodes, after, next⟩ := found
    rw [hr] at h
    have hp : parse source = .ok { nodes, after } := h
    rw [hp]
    rfl
  | fault fault =>
    rw [hr] at h
    have hp : parse source = .error fault := h
    rw [hp]
    rfl
  | astray =>
    rw [hr] at h
    exact h.elim
  | stuck =>
    rw [hr] at h
    exact h.elim

def Turn.next? : Turn → Option Nat
  | .finished _ _ => none
  | .closing _ brace => some (brace + 1)
  | .leaf _ _ next => some next
  | .opening _ _ brace => some (brace + 1)

/-- The cursors at which a turn begins, in the loop over the nodes and in its nested calls. -/
inductive Reached (source : Text) : Nat → Prop
  | start : Reached source 0
  | turn {cursor next : Nat} {turn : Turn} (h : Reached source cursor)
      (ht : turnAt source cursor = .ok turn) (hn : turn.next? = some next) : Reached source next

theorem turn_next {found : Found} {cursor next : Nat} {turn : Turn}
    (h : found.turn cursor = .ok turn) (hn : turn.next? = some next) :
    ∃ segment rest, found = .segment segment rest ∧ next = cursor + segment.print.byteLength := by
  cases found with
  | finished after => cases h; cases hn
  | broken fault => cases h
  | segment segment rest =>
    refine ⟨segment, rest, rfl, ?_⟩
    cases segment with
    | leaf content layout => cases h; cases hn; rfl
    | opening head layout =>
      cases h
      cases hn
      rw [byteLength_print_opening, Nat.add_assoc]
    | closing before =>
      cases h
      cases hn
      rw [byteLength_print_closing, Nat.add_assoc]

theorem Reached.restAt {source : Text} {cursor : Nat} (h : Reached source cursor) :
    ∃ rest, RestAt source cursor rest := by
  induction h with
  | start => exact ⟨source, RestAt.start source⟩
  | turn h ht hn ih =>
    obtain ⟨rest, hr⟩ := ih
    rw [turnAt_eq hr] at ht
    obtain ⟨segment, tail, hs, rfl⟩ := turn_next ht hn
    exact ⟨tail, restAt_segment hr hs⟩

/-- No source makes the reader take a slice or put the cursor off the boundaries between characters,
and no turn of its loop leaves the cursor where it was: the reader returns what `parse` does. Each
turn begins on a boundary and, unless it ends the reading, leads the cursor on. -/
theorem checkedParse_eq_and_lt_next (source : Text) :
    checkedParse source = .ofExcept (parse source) ∧
      ∀ cursor, Reached source cursor →
        isBoundary source cursor ∧ cursor ≤ source.byteLength ∧
          ∀ turn next, turnAt source cursor = .ok turn → turn.next? = some next → cursor < next := by
  refine ⟨checkedParse_eq_parse source, fun cursor hc => ?_⟩
  obtain ⟨rest, hr⟩ := hc.restAt
  have hb : isBoundary source cursor := isBoundary_iff.mpr ⟨rest, hr⟩
  refine ⟨hb, le_of_isBoundary hb, fun turn next ht hn => ?_⟩
  rw [turnAt_eq hr] at ht
  obtain ⟨segment, tail, hs, rfl⟩ := turn_next ht hn
  exact lt_add_segment cursor hs

example : checkedParse "a:'\\é';b:\\".toList = .ok
    { nodes := [
        .leaf (.declaration ['a'] ['\'', '\\', 'é', '\'']) { between := [':'], semicolon := true },
        .leaf (.declaration ['b'] ['\\']) { between := [':'] }] } := by cbv

end StyleValues
