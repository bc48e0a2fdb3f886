import StyleValues.Proofs.Sheet.RoundTrip
import StyleValues.Proofs.Sheet.Splitting

/-!
# Reading with a cursor

A style sheet can be read with a cursor, a byte offset that is moved on over
the source: every text that goes into the tree is a slice of the source, and
blocks are read by recursion. Here the reading is done with everything checked
that must not happen. It goes astray if a slice is taken, or the cursor put,
anywhere but on boundaries between characters, and it is stuck if a turn of the
loop over the nodes leaves the cursor where it was or behind the source.

One turn reads the segment that is next at the cursor (`turnAt_eq`).
-/

set_option autoImplicit false

namespace StyleValues

open Text

/-! ### The reader -/

def moveTo (source : Text) (cursor : Nat) : Outcome Nat :=
  if isBoundary source cursor then .ok cursor else .astray

def advanceTo (source remaining : Text) : Outcome Nat :=
  moveTo source (source.byteLength - remaining.byteLength)

inductive Turn where
  | finished (after : Text) (cursor : Nat)
  | closing (before : Text) (brace : Nat)
  | leaf (content : Leaf) (layout : Layout) (next : Nat)
  | opening (head : Head) (layout : Layout) (brace : Nat)
deriving DecidableEq, Repr

def skipFiller (source : Text) (cursor : Nat) : Outcome (Text × Nat) := do
  let rest ← sliceFrom source cursor
  let next ← advanceTo source (takeFiller rest).2
  let before ← slice source cursor next
  return (before, next)

def commentAt (source before : Text) (start : Nat) : Outcome Turn := do
  let rest ← sliceFrom source start
  match takeComment? rest with
  | none => .fault (.unclosedComment start)
  | some (text, remaining) =>
    let next ← advanceTo source remaining
    return .leaf (.comment text) { before } next

def atRuleAt (source before : Text) (start : Nat) : Outcome Turn := do
  let rest ← sliceFrom source start
  match takeAtKeyword? rest with
  | none => .fault (.missingAtRuleName start)
  | some (name, remaining) =>
    let cursor ← advanceTo source remaining
    let (stop, terminator) ← statementEndAt source 0 cursor
    let text ← slice source cursor stop
    let padded ← splitPadding text
    let layout : Layout :=
      if padded.body.isEmpty then { before, between := padded.leading }
      else { before, afterName := padded.leading, between := padded.trailing }
    let stop ← moveTo source stop
    match terminator with
    | .openBrace => return .opening (.atRule name padded.body) layout stop
    | .semicolon =>
      let next ← moveTo source (stop + 1)
      return .leaf (.atRule name padded.body) { layout with semicolon := true } next
    | .closeBrace => return .leaf (.atRule name padded.body) layout stop
    | .endOfText => return .leaf (.atRule name padded.body) layout stop

def ruleAt (before text : Text) (stop : Nat) : Outcome Turn := do
  let between ← sliceFrom text (trimEnd text).byteLength
  return .opening (.rule (trimEnd text)) { before, between } stop

def declarationAt (source before text : Text) (start stop : Nat) (semicolon : Bool) :
    Outcome Turn :=
  match colonAt? text 0 none 0 with
  | none => .fault (.unknownWord (trim text) start)
  | some colon => do
    let left ← slice text 0 colon
    let property := trimEnd left
    if property.isEmpty then .fault (.unknownWord (trim text) start)
    else
      let right ← sliceFrom text (colon + 1)
      let padded ← splitPadding right
      let gap ← slice text property.byteLength colon
      let next ← moveTo source (if semicolon then stop + 1 else stop)
      return .leaf (.declaration property padded.body)
        { before, between := gap ++ ':' :: padded.leading, after := padded.trailing, semicolon }
        next

def statementAt (source before : Text) (start : Nat) : Outcome Turn := do
  let (stop, terminator) ← statementEndAt source 0 start
  let text ← slice source start stop
  let stop ← moveTo source stop
  if terminator = .openBrace then ruleAt before text stop
  else declarationAt source before text start stop (terminator == .semicolon)

/-- One turn of the loop over the nodes, up to the block that it may open. -/
def turnAt (source : Text) (cursor : Nat) : Outcome Turn := do
  let (before, start) ← skipFiller source cursor
  let rest ← sliceFrom source start
  if rest = [] then return .finished before start
  else if rest.head? = some '}' then return .closing before start
  else if ['/', '*'].isPrefixOf rest then commentAt source before start
  else if rest.head? = some '@' then atRuleAt source before start
  else statementAt source before start

/-- The nodes from the cursor on, up to the brace that closes the block opened at `block`, or up to
the end of the source outside all blocks; what stands in front of that end, and the cursor behind
it. `nodes` are those read so far. -/
def nodesAt (source : Text) (block : Option Nat) (cursor : Nat) (nodes : List Node) :
    Outcome (List Node × Text × Nat) := do
  match ← turnAt source cursor with
  | .finished after next =>
    match block with
    | some brace => .fault (.unclosedBlock brace)
    | none => return (nodes, after, next)
  | .closing before brace =>
    match block with
    | some _ =>
      let next ← moveTo source (brace + 1)
      return (nodes, before, next)
    | none => .fault (.unexpectedCloseBrace brace)
  | .leaf content layout next =>
    if cursor < next ∧ next ≤ source.byteLength then
      nodesAt source block next (nodes ++ [.leaf content layout])
    else .stuck
  | .opening head layout brace =>
    let inner ← moveTo source (brace + 1)
    if cursor < inner ∧ inner ≤ source.byteLength then
      let (children, after, next) ← nodesAt source (some brace) inner []
      if cursor < next ∧ next ≤ source.byteLength then
        nodesAt source block next (nodes ++ [.block head children { layout with after }])
      else .stuck
    else .stuck
termination_by source.byteLength - cursor

def checkedParse (source : Text) : Outcome Stylesheet := do
  let (nodes, after, _) ← nodesAt source none 0 []
  return { nodes, after }

/-! ### One turn -/

section
variable {source before s rest : Text} {cursor next : Nat}

theorem moveTo_eq (h : RestAt source cursor rest) : moveTo source cursor = .ok cursor :=
  if_pos (isBoundary_iff.mpr ⟨rest, h⟩)

theorem advanceTo_eq (h : RestAt source cursor rest) : advanceTo source rest = .ok cursor := by
  rw [advanceTo, ← h.length, Nat.add_sub_cancel]
  exact moveTo_eq h

theorem skipFiller_eq (h : RestAt source cursor rest) :
    skipFiller source cursor =
      .ok ((takeFiller rest).1, cursor + (takeFiller rest).1.byteLength) := by
  have hf : RestAt source cursor ((takeFiller rest).1 ++ (takeFiller rest).2) := by
    rwa [takeFiller_append]
  rw [skipFiller, sliceFrom_eq h, Outcome.ok_bind, advanceTo_eq hf.forward, Outcome.ok_bind,
    slice_eq hf]
  rfl

def Found.turn (cursor : Nat) : Found → Outcome Turn
  | .segment (.leaf content layout) _ =>
    .ok (.leaf content layout (cursor + (content.print layout).byteLength))
  | .segment (.opening head layout) _ =>
    .ok (.opening head layout (cursor + (head.print layout).byteLength))
  | .segment (.closing before) _ => .ok (.closing before (cursor + before.byteLength))
  | .finished after => .ok (.finished after (cursor + after.byteLength))
  | .broken fault => .fault (fault.shift cursor)

theorem turn_leaf {content : Leaf} {layout : Layout} (h : RestAt source cursor (before ++ s))
    (hp : (Segment.leaf content layout).print ++ rest = before ++ s) (hn : RestAt source next rest) :
    .ok (.leaf content layout next) =
      Found.turn cursor (.segment (.leaf content layout) rest) := by
  rw [← hp] at h
  rw [Found.turn, hn.position_eq h.forward]
  rfl

theorem turn_opening {head : Head} {layout : Layout} (h : RestAt source cursor (before ++ s))
    (hp : (Segment.opening head layout).print ++ rest = before ++ s)
    (hn : RestAt source next ('{' :: rest)) :
    .ok (.opening head layout next) =
      Found.turn cursor (.segment (.opening head layout) rest) := by
  rw [← hp, Segment.print, List.append_assoc] at h
  rw [Found.turn, hn.position_eq h.forward]

theorem commentAt_eq (h : RestAt source cursor (before ++ s)) :
    commentAt source before (cursor + before.byteLength) =
      (readComment before s).turn cursor := by
  rw [commentAt, sliceFrom_eq h.forward, Outcome.ok_bind]
  cases hc : takeComment? s with
  | none =>
    rw [readComment, hc]
    rfl
  | some parts =>
    obtain ⟨text, remaining⟩ := parts
    have hread : readComment before s =
        .segment (.leaf (.comment text) { before }) remaining := by rw [readComment, hc]
    have hp := readComment_print hread
    have hr := h
    rw [← hp] at hr
    simp only [advanceTo_eq hr.forward, Outcome.ok_bind, Outcome.pure_eq]
    rw [hread]
    exact turn_leaf h hp hr.forward

theorem atRuleAt_eq (h : RestAt source cursor (before ++ s)) :
    atRuleAt source before (cursor + before.byteLength) = (readAtRule before s).turn cursor := by
  rw [atRuleAt, sliceFrom_eq h.forward, Outcome.ok_bind]
  cases hn : takeAtKeyword? s with
  | none =>
    rw [readAtRule, hn]
    rfl
  | some parts =>
    obtain ⟨name, tail⟩ := parts
    have htail : RestAt source (cursor + before.byteLength + (1 + name.byteLength)) tail := by
      have hs := h.forward
      rw [← takeAtKeyword?_append hn, ← List.cons_append] at hs
      exact hs.forward
    simp only [advanceTo_eq htail, Outcome.ok_bind, statementEndAt_eq htail]
    cases hc : cutStatement tail with
    | error fault =>
      rw [readAtRule, hn]
      simp only [hc, statementStop, Outcome.fault_bind, Found.turn, Fault.shift_shift,
        Nat.add_assoc]
    | ok cut =>
      have hbody : RestAt source (cursor + before.byteLength + (1 + name.byteLength))
          (cut.body ++ cut.rest) := by rwa [cutStatement_append hc]
      have hstop := hbody.forward
      have hrest := cutStatement_rest hc
      simp only [statementStop, Outcome.ok_bind, slice_eq hbody, splitPadding_eq, moveTo_eq hstop]
      cases ht : cut.terminator with
      | openBrace =>
        have hread : readAtRule before s = .segment (.opening (.atRule name (padding cut.body).body)
            (atRuleLayout before cut.body)) cut.rest.tail := by
          rw [readAtRule, hn]
          simp only [hc, ht]
        rw [ht] at hrest
        rw [← tail_of_head? hrest] at hstop
        rw [hread]
        exact turn_opening h (readAtRule_print hread) hstop
      | semicolon =>
        have hread : readAtRule before s = .segment (.leaf (.atRule name (padding cut.body).body)
            { atRuleLayout before cut.body with semicolon := true }) cut.rest.tail := by
          rw [readAtRule, hn]
          simp only [hc, ht]
        rw [ht] at hrest
        rw [← tail_of_head? hrest] at hstop
        have hnext := moveTo_eq hstop.step
        rw [hread, ← turn_leaf h (readAtRule_print hread) hstop.step]
        exact congrArg (Outcome.bind · _) hnext
      | closeBrace =>
        have hread : readAtRule before s = .segment (.leaf (.atRule name (padding cut.body).body)
            (atRuleLayout before cut.body)) cut.rest := by
          rw [readAtRule, hn]
          simp only [hc, ht]
        rw [hread]
        exact turn_leaf h (readAtRule_print hread) hstop
      | endOfText =>
        have hread : readAtRule before s = .segment (.leaf (.atRule name (padding cut.body).body)
            (atRuleLayout before cut.body)) cut.rest := by
          rw [readAtRule, hn]
          simp only [hc, ht]
        rw [hread]
        exact turn_leaf h (readAtRule_print hread) hstop

theorem declarationAt_eq {body : Text} {stop : Nat} (semicolon : Bool)
    (h : RestAt source cursor (before ++ (body ++ ((if semicolon then [';'] else []) ++ rest))))
    (hn : RestAt source (if semicolon then stop + 1 else stop) rest) :
    declarationAt source before body (cursor + before.byteLength) stop semicolon =
      (readDeclaration before body semicolon rest).turn cursor := by
  rw [declarationAt, colonAt?_eq, findColon?]
  cases hc : splitAtColon? body with
  | none =>
    rw [readDeclaration, declarationOf?, hc]
    rfl
  | some parts =>
    obtain ⟨left, right⟩ := parts
    have hleft : RestAt body 0 (left ++ ':' :: right) := by
      rw [ColonSearch.split?_append hc]
      exact RestAt.start body
    have hcolon : RestAt body (0 + left.byteLength) (':' :: right) := hleft.forward
    have hgap : RestAt body (0 + (trimEnd left).byteLength)
        (trailingBlanks left ++ ':' :: right) := by
      rw [← trimEnd_append left, List.append_assoc] at hleft
      exact hleft.forward
    have hlength : (trimEnd left).byteLength + (trailingBlanks left).byteLength = left.byteLength := by
      rw [← byteLength_append, trimEnd_append]
    have hsl := slice_eq hleft
    have hsg := slice_eq hgap
    rw [Nat.zero_add] at hcolon hsl hsg
    rw [hlength] at hsg
    simp only [Option.map_some, hsl, Outcome.ok_bind]
    by_cases he : (trimEnd left).isEmpty
    · rw [if_pos he, readDeclaration, declarationOf?, hc]
      simp only [he]
      rfl
    · have hread : readDeclaration before body semicolon rest =
          .segment (.leaf (.declaration (trimEnd left) (padding right).body)
            { before
              between := trailingBlanks left ++ ':' :: (padding right).leading
              after := (padding right).trailing
              semicolon }) rest := by
        rw [readDeclaration, declarationOf?, hc]
        simp only [he]
        rfl
      have hright : sliceFrom body (left.byteLength + 1) = .ok right := sliceFrom_eq hcolon.step
      rw [if_neg he, hread]
      simp only [hright, Outcome.ok_bind, splitPadding_eq, hsg, moveTo_eq hn]
      exact turn_leaf h (readDeclaration_print hread) hn

theorem statementAt_eq (h : RestAt source cursor (before ++ s)) :
    statementAt source before (cursor + before.byteLength) =
      (readStatement before s).turn cursor := by
  rw [statementAt, statementEndAt_eq h.forward]
  cases hc : cutStatement s with
  | error fault =>
    rw [readStatement, hc]
    simp only [statementStop, Outcome.fault_bind, Found.turn, Fault.shift_shift]
  | ok cut =>
    have hs := cutStatement_append hc
    have hbody : RestAt source (cursor + before.byteLength) (cut.body ++ cut.rest) := by
      rw [hs]
      exact h.forward
    have hstop := hbody.forward
    have hrest := cutStatement_rest hc
    simp only [statementStop, Outcome.ok_bind, slice_eq hbody, moveTo_eq hstop]
    rw [← hs] at h
    cases ht : cut.terminator with
    | openBrace =>
      have hread : readStatement before s = .segment (.opening (.rule (trimEnd cut.body))
          { before, between := trailingBlanks cut.body }) cut.rest.tail := by
        rw [readStatement, hc]
        simp only [ht]
      have hgap : RestAt cut.body (trimEnd cut.body).byteLength (trailingBlanks cut.body) :=
        ⟨_, trimEnd_append _, rfl⟩
      rw [ht] at hrest
      rw [← tail_of_head? hrest] at hstop
      have hp := readStatement_print hread
      rw [← hs] at hp
      rw [hread, if_pos rfl, ruleAt, sliceFrom_eq hgap]
      exact turn_opening h hp hstop
    | semicolon =>
      have hread : readStatement before s = readDeclaration before cut.body true cut.rest.tail := by
        rw [readStatement, hc]
        simp only [ht]
      rw [ht] at hrest
      rw [← tail_of_head? hrest] at hstop h
      rw [hread, if_neg (by decide)]
      exact declarationAt_eq true h hstop.step
    | closeBrace =>
      have hread : readStatement before s = readDeclaration before cut.body false cut.rest := by
        rw [readStatement, hc]
        simp only [ht]
      rw [hread, if_neg (by decide)]
      exact declarationAt_eq false h hstop
    | endOfText =>
      have hread : readStatement before s = readDeclaration before cut.body false cut.rest := by
        rw [readStatement, hc]
        simp only [ht]
      rw [hread, if_neg (by decide)]
      exact declarationAt_eq false h hstop

theorem turnAt_eq (h : RestAt source cursor rest) :
    turnAt source cursor = (nextSegment rest).turn cursor := by
  have hf : RestAt source cursor ((takeFiller rest).1 ++ (takeFiller rest).2) := by
    rwa [takeFiller_append]
  rw [turnAt, skipFiller_eq h, Outcome.ok_bind, nextSegment]
  dsimp only
  rw [sliceFrom_eq hf.forward, Outcome.ok_bind]
  generalize (takeFiller rest).1 = before at hf
  cases hs : (takeFiller rest).2 with
  | nil => rfl
  | cons c s =>
    rw [hs] at hf
    have hprefix : ['/', '*'].isPrefixOf (c :: s) ↔ c = '/' ∧ s.head? = some '*' := by
      cases s with
      | nil => simp
      | cons d s => simpa using and_congr eq_comm eq_comm
    rw [if_neg (List.cons_ne_nil c s), readSegment]
    simp only [List.head?_cons, Option.some_inj, hprefix]
    by_cases hclose : c = '}'
    · rw [if_pos hclose, if_pos hclose]
      rfl
    rw [if_neg hclose, if_neg hclose]
    by_cases hat : c = '@'
    · have hslash : ¬ (c = '/' ∧ s.head? = some '*') := by simp [hat]
      rw [if_neg hslash, if_pos hat, if_pos hat]
      exact atRuleAt_eq hf
    rw [if_neg hat, if_neg hat]
    by_cases hcomment : c = '/' ∧ s.head? = some '*'
    · rw [if_pos hcomment, if_pos hcomment]
      exact commentAt_eq hf
    · rw [if_neg hcomment, if_neg hcomment]
      exact statementAt_eq hf

end

end StyleValues
