import Mathlib.Logic.Relation
import StyleValues.Proofs.Sheet.Scanning

/-!
# Reading to the end of a statement

The rules for the end of a statement, as steps from one position of a text to
the next: an escape, a string and a comment are passed over in one step, and
every other character in a step of its own. The end that is found, or the
string or comment that has no end, is the one that the steps lead to
(`result_eq_iff`), and the search over bytes comes to it as well.
-/

set_option autoImplicit false

namespace StyleValues

open Text

/-- Where the reading of a statement stands: at a byte offset, inside so many parentheses, in front
of the rest of the text. -/
structure StatementScan where
  position : Nat
  depth : Nat
  rest : Text
deriving DecidableEq, Repr

namespace StatementScan

def Stops (depth : Nat) (c : Char) : Prop := depth = 0 ∧ (c = ';' ∨ c = '{' ∨ c = '}')

inductive Passes : StatementScan → StatementScan → Prop
  | escape {position depth : Nat} (c : Char) (rest : Text) :
    Passes ⟨position, depth, '\\' :: c :: rest⟩ ⟨position + (1 + c.utf8Size), depth, rest⟩
  /-- A backslash at the end of the text has nothing to take with it. -/
  | lastEscape {position depth : Nat} :
    Passes ⟨position, depth, ['\\']⟩ ⟨position + 1, depth, []⟩
  | string {position depth : Nat} {quote : Char} {value : Text} (rest : Text) :
    isQuote quote → QuotedBody quote value →
      Passes ⟨position, depth, quote :: (value ++ quote :: rest)⟩
        ⟨position + (value.byteLength + 2), depth, rest⟩
  | comment {position depth : Nat} {inside : Text} (rest : Text) :
    ¬ ['*', '/'] <:+: inside →
      Passes ⟨position, depth, '/' :: '*' :: (inside ++ '*' :: '/' :: rest)⟩
        ⟨position + (inside.byteLength + 4), depth, rest⟩
  | character {position depth : Nat} {c : Char} {rest : Text} :
    ¬ Stops depth c → c ≠ '\\' → ¬ isQuote c → ¬ (c = '/' ∧ rest.head? = some '*') →
      Passes ⟨position, depth, c :: rest⟩ ⟨position + c.utf8Size, depthBehind depth c, rest⟩

inductive Ends : StatementScan → Except Fault (Nat × Terminator) → Prop
  | stop {position depth : Nat} {c : Char} (rest : Text) :
    Stops depth c → Ends ⟨position, depth, c :: rest⟩ (.ok (position, .ofChar c))
  | endOfText {position depth : Nat} :
    Ends ⟨position, depth, []⟩ (.ok (position, .endOfText))
  | unclosedString {position depth : Nat} {quote : Char} {rest : Text} :
    isQuote quote → (∀ value behind, QuotedBody quote value → rest ≠ value ++ quote :: behind) →
      Ends ⟨position, depth, quote :: rest⟩ (.error (.unclosedString position))
  | unclosedComment {position depth : Nat} {rest : Text} :
    ¬ ['*', '/'] <:+: rest →
      Ends ⟨position, depth, '/' :: '*' :: rest⟩ (.error (.unclosedComment position))

def result (s : StatementScan) : Except Fault (Nat × Terminator) :=
  match cutUnits s.depth s.rest with
  | .ok cut => .ok (s.position + cut.body.byteLength, cut.terminator)
  | .error fault => .error (fault.shift s.position)

end StatementScan

/-! ### Units -/

section
variable {quote c : Char} {value inside rest : Text}

theorem takeUnit_string (hq : isQuote quote) (hv : QuotedBody quote value) (rest : Text) :
    takeUnit quote (value ++ quote :: rest) = .ok (quote :: (value ++ [quote]), rest) := by
  have hb : quote ≠ '\\' := by
    rintro rfl
    cases hq
  rw [takeUnit, if_neg hb, if_pos hq, takeQuoted?_of_quotedBody hb hv]

theorem breakAt?_comment (h : ¬ ['*', '/'] <:+: inside) (rest : Text) :
    breakAt? ['*', '/'] (inside ++ '*' :: '/' :: rest) = some (inside, rest) := by
  induction inside with
  | nil => rfl
  | cons c inside ih =>
    rw [List.infix_cons_iff, not_or] at h
    have hc : c = '*' → (inside ++ '*' :: '/' :: rest).head? ≠ some '/' := by
      rintro rfl hhead
      cases inside with
      | nil => cases hhead
      | cons d inside =>
        cases hhead
        exact h.1 (List.prefix_append ['*', '/'] inside)
    rw [List.cons_append, Reading.breakAt?_comment_of_ne hc, ih h.2]
    rfl

theorem takeUnit_comment (h : ¬ ['*', '/'] <:+: inside) (rest : Text) :
    takeUnit '/' ('*' :: (inside ++ '*' :: '/' :: rest)) =
      .ok ('/' :: '*' :: (inside ++ ['*', '/']), rest) := by
  rw [takeUnit, if_neg (by decide), if_neg (by decide), if_pos ⟨rfl, rfl⟩, List.tail_cons,
    breakAt?_comment h]

theorem takeUnit_unclosedString (hq : isQuote quote)
    (h : ∀ value behind, QuotedBody quote value → rest ≠ value ++ quote :: behind) :
    takeUnit quote rest = .error (.unclosedString 0) := by
  have hb : quote ≠ '\\' := by
    rintro rfl
    cases hq
  rw [takeUnit, if_neg hb, if_pos hq]
  cases hv : takeQuoted? quote false rest with
  | none => rfl
  | some parts =>
    have hbody : QuotedBody quote parts.1 := quotedBody_of_takeQuoted? hv
    exact absurd (takeQuoted?_append hv).symm (h parts.1 parts.2 hbody)

theorem takeUnit_unclosedComment (h : ¬ ['*', '/'] <:+: rest) :
    takeUnit '/' ('*' :: rest) = .error (.unclosedComment 0) := by
  have hnone : breakAt? ['*', '/'] rest = none := by
    rw [← hasSubtext_iff, hasSubtext] at h
    simpa using h
  rw [takeUnit, if_neg (by decide), if_neg (by decide), if_pos ⟨rfl, rfl⟩, List.tail_cons, hnone]

theorem takeUnit_character (hb : c ≠ '\\') (hq : ¬ isQuote c)
    (hm : ¬ (c = '/' ∧ rest.head? = some '*')) : takeUnit c rest = .ok ([c], rest) := by
  rw [takeUnit, if_neg hb, if_neg hq, if_neg hm]

end

namespace StatementScan

/-! ### One step -/

section
variable {depth : Nat} {c : Char}

theorem not_stops_of_isQuote (h : isQuote c) : ¬ Stops depth c := by
  rintro ⟨-, rfl | rfl | rfl⟩ <;> cases h

theorem depthBehind_of_isQuote (h : isQuote c) : depthBehind depth c = depth := by
  rcases isQuote_cases h with rfl | rfl <;> rfl

end

theorem exists_unit {s t : StatementScan} (h : s.Passes t) :
    ∃ c rest unit, s.rest = c :: rest ∧ ¬ Stops s.depth c ∧ takeUnit c rest = .ok (unit, t.rest) ∧
      t.depth = depthBehind s.depth c ∧ t.position = s.position + unit.byteLength := by
  cases h with
  | @escape position depth c rest =>
    exact ⟨'\\', c :: rest, ['\\', c], rfl, by simp [Stops], rfl, rfl, rfl⟩
  | @lastEscape position depth => exact ⟨'\\', [], ['\\'], rfl, by simp [Stops], rfl, rfl, rfl⟩
  | @string position depth quote value rest hq hv =>
    refine ⟨quote, _, quote :: (value ++ [quote]), rfl, not_stops_of_isQuote hq,
      takeUnit_string hq hv rest, (depthBehind_of_isQuote hq).symm, ?_⟩
    simp only [byteLength, byteLength_append, utf8Size_eq_one (toNat_lt_of_isQuote hq)]
    omega
  | @comment position depth inside rest hi =>
    refine ⟨'/', _, '/' :: '*' :: (inside ++ ['*', '/']), rfl, by simp [Stops],
      takeUnit_comment hi rest, rfl, ?_⟩
    rw [byteLength, byteLength, byteLength_append]
    show position + (inside.byteLength + 4) = position + (1 + (1 + (inside.byteLength + 2)))
    omega
  | @character position depth c rest hs hb hq hm =>
    exact ⟨c, rest, [c], rfl, hs, takeUnit_character hb hq hm, rfl, rfl⟩

/-- A step does not change what the reading comes to. -/
theorem result_of_passes {s t : StatementScan} (h : s.Passes t) : s.result = t.result := by
  obtain ⟨c, rest, unit, hrest, hs, hu, hdepth, hposition⟩ := exists_unit h
  rw [result, result, hrest, cutUnits_of_unit hs hu, hdepth, hposition]
  cases cutUnits (depthBehind s.depth c) t.rest with
  | ok cut => simp [cutBehind, StatementCut.prepend, byteLength_append, Nat.add_assoc]
  | error fault => simp [cutBehind, Fault.shift_shift]

theorem restAt_of_passes {source : Text} {s t : StatementScan} (h : s.Passes t)
    (hs : RestAt source s.position s.rest) :
    RestAt source t.position t.rest ∧ s.position ≤ t.position := by
  obtain ⟨c, rest, unit, hrest, -, hu, -, hposition⟩ := exists_unit h
  rw [hrest, ← (takeUnit_append hu).1] at hs
  rw [hposition]
  exact ⟨hs.forward, Nat.le_add_right _ _⟩

theorem result_of_ends {s : StatementScan} {r : Except Fault (Nat × Terminator)} (h : s.Ends r) :
    s.result = r := by
  cases h with
  | stop rest hs =>
    rw [result, cutUnits_of_stop hs]
    rfl
  | endOfText =>
    rw [result, cutUnits_nil]
    rfl
  | unclosedString hq h =>
    rw [result, cutUnits_of_error (not_stops_of_isQuote hq) (takeUnit_unclosedString hq h)]
    rfl
  | @unclosedComment position depth rest h =>
    have hs : ¬ Stops depth '/' := by simp [Stops]
    rw [result, cutUnits_of_error hs (takeUnit_unclosedComment h)]
    rfl

/-- Where nothing ends, a step can be taken, and it gets on in the text. -/
theorem ends_or_passes (s : StatementScan) :
    (∃ r, s.Ends r) ∨ ∃ t, s.Passes t ∧ t.rest.length < s.rest.length := by
  obtain ⟨position, depth, _ | ⟨c, rest⟩⟩ := s
  · exact .inl ⟨_, .endOfText⟩
  by_cases hs : Stops depth c
  · exact .inl ⟨_, .stop rest hs⟩
  by_cases hb : c = '\\'
  · subst hb
    cases rest with
    | nil => exact .inr ⟨_, .lastEscape, Nat.zero_lt_one⟩
    | cons d rest =>
      refine .inr ⟨_, .escape d rest, ?_⟩
      simp only [List.length_cons]
      omega
  by_cases hq : isQuote c
  · by_cases hv : ∃ value behind, QuotedBody c value ∧ rest = value ++ c :: behind
    · obtain ⟨value, behind, hbody, rfl⟩ := hv
      refine .inr ⟨_, .string behind hq hbody, ?_⟩
      simp only [List.length_cons, List.length_append]
      omega
    · refine .inl ⟨_, .unclosedString hq fun value behind hbody he => hv ?_⟩
      exact ⟨value, behind, hbody, he⟩
  by_cases hm : c = '/' ∧ rest.head? = some '*'
  · obtain ⟨rfl, hstar⟩ := hm
    obtain ⟨tail, rfl⟩ := List.head?_eq_some_iff.mp hstar
    cases hi : breakAt? ['*', '/'] tail with
    | none =>
      refine .inl ⟨_, .unclosedComment ?_⟩
      rw [← hasSubtext_iff, hasSubtext, hi]
      exact Bool.false_ne_true
    | some parts =>
      have hn := not_infix_of_breakAt? (List.cons_ne_nil _ _) hi
      rw [← breakAt?_append hi]
      refine .inr ⟨_, .comment parts.2 hn, ?_⟩
      simp only [List.length_cons, List.length_append]
      omega
  · exact .inr ⟨_, .character hs hb hq hm, Nat.lt_succ_self _⟩

/-- From everywhere the steps lead to an end, the one that is found. -/
theorem exists_ends (s : StatementScan) :
    ∃ t, Relation.ReflTransGen Passes s t ∧ t.Ends s.result := by
  induction hn : s.rest.length using Nat.strong_induction_on generalizing s with
  | _ n ih =>
    rcases s.ends_or_passes with ⟨r, hends⟩ | ⟨next, hstep, hlt⟩
    · rw [result_of_ends hends]
      exact ⟨s, .refl, hends⟩
    · obtain ⟨t, hsteps, hends⟩ := ih _ (hn ▸ hlt) next rfl
      rw [result_of_passes hstep]
      exact ⟨t, .head hstep hsteps, hends⟩

/-- The result is what the steps lead to, and they lead to nothing else. -/
theorem result_eq_iff {s : StatementScan} {r : Except Fault (Nat × Terminator)} :
    s.result = r ↔ ∃ t, Relation.ReflTransGen Passes s t ∧ t.Ends r := by
  constructor
  · rintro rfl
    exact s.exists_ends
  · rintro ⟨t, hsteps, hends⟩
    induction hsteps using Relation.ReflTransGen.head_induction_on with
    | refl => exact result_of_ends hends
    | head hstep _ ih => exact (result_of_passes hstep).trans ih

/-! ### A whole run -/

theorem restAt_of_run {source : Text} {s t : StatementScan} (h : Relation.ReflTransGen Passes s t)
    (hs : RestAt source s.position s.rest) :
    RestAt source t.position t.rest ∧ s.position ≤ t.position := by
  induction h with
  | refl => exact ⟨hs, Nat.le_refl _⟩
  | tail _ hstep ih =>
    obtain ⟨hr, hle⟩ := restAt_of_passes hstep ih.1
    exact ⟨hr, Nat.le_trans ih.2 hle⟩

end StatementScan

theorem dropBytes_of_restAt {source rest : Text} {start : Nat} (h : RestAt source start rest) :
    source.dropBytes start = rest := by
  obtain ⟨front, rfl, rfl⟩ := h
  induction front with
  | nil => cases rest <;> rfl
  | cons c front ih =>
    have hpos := c.utf8Size_pos
    rw [List.cons_append, dropBytes, byteLength, if_neg (by omega), Nat.add_sub_cancel_left]
    exact ih

theorem statementEnd_eq_result {source rest : Text} {start : Nat} (h : RestAt source start rest) :
    statementEnd source start = StatementScan.result ⟨start, 0, rest⟩ := by
  have hskipped : source.byteLength - rest.byteLength = start := by
    have := h.length
    omega
  cases hcut : cutUnits 0 rest <;>
    simp only [statementEnd, dropBytes_of_restAt h, hskipped, cutStatement_eq_cutUnits,
      StatementScan.result, hcut]

/-- From a boundary on, the end of a statement is what the steps lead to, which is a place in the
text behind the start: that of the mark that ends the statement, or the end of the text. The search
over bytes finds the same. -/
theorem statementEnd_of_scan {source rest : Text} {start : Nat} (h : RestAt source start rest) :
    (∀ result, statementEnd source start = result ↔ ∃ scan,
      Relation.ReflTransGen StatementScan.Passes ⟨start, 0, rest⟩ scan ∧ scan.Ends result) ∧
      statementEndAt source 0 start = .ofExcept (statementEnd source start) ∧
      ∀ stop terminator, statementEnd source start = .ok (stop, terminator) →
        start ≤ stop ∧ stop ≤ source.byteLength ∧
          match terminator with
          | .semicolon => ∃ behind, RestAt source stop (';' :: behind)
          | .openBrace => ∃ behind, RestAt source stop ('{' :: behind)
          | .closeBrace => ∃ behind, RestAt source stop ('}' :: behind)
          | .endOfText => stop = source.byteLength := by
  have hend := statementEnd_eq_result h
  refine ⟨?_, ?_, ?_⟩
  · intro result
    rw [hend]
    exact StatementScan.result_eq_iff
  · rw [hend, statementEndAt_eq_cutUnits h, StatementScan.result]
    dsimp only
    cases cutUnits 0 rest <;> rfl
  · intro stop terminator hok
    rw [hend] at hok
    obtain ⟨scan, hrun, hends⟩ := StatementScan.result_eq_iff.mp hok
    obtain ⟨hr, hle⟩ := StatementScan.restAt_of_run hrun h
    cases hends with
    | @stop position depth c behind hs =>
      have hlength : stop + byteLength (c :: behind) = source.byteLength := hr.length
      refine ⟨hle, Nat.le.intro hlength, ?_⟩
      obtain ⟨-, rfl | rfl | rfl⟩ := hs <;> exact ⟨behind, hr⟩
    | endOfText =>
      have hlength : stop = source.byteLength := hr.length
      exact ⟨hle, Nat.le_of_eq hlength, hlength⟩

theorem statementEnd_of_scan_enclosed :
    RestAt ['é', '(', ';', ')', ';'] 2 ['(', ';', ')', ';'] ∧
      statementEnd ['é', '(', ';', ')', ';'] 2 = .ok (5, .semicolon) ∧
      (∃ scan, Relation.ReflTransGen StatementScan.Passes ⟨2, 0, ['(', ';', ')', ';']⟩ scan ∧
        scan.Ends (.ok (5, .semicolon))) ∧
      ∃ behind, RestAt ['é', '(', ';', ')', ';'] 5 (';' :: behind) := by
  have hrest : RestAt ['é', '(', ';', ')', ';'] 2 ['(', ';', ')', ';'] := ⟨['é'], rfl, rfl⟩
  have hend : statementEnd ['é', '(', ';', ')', ';'] 2 = .ok (5, .semicolon) := rfl
  obtain ⟨hscan, -, hplace⟩ := statementEnd_of_scan hrest
  exact ⟨hrest, hend, (hscan _).mp hend, (hplace _ _ hend).2.2⟩

end StyleValues
