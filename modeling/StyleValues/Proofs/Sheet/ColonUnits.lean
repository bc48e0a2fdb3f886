import StyleValues.Proofs.Sheet.ClosedTexts
import StyleValues.Proofs.Sheet.Locality
import StyleValues.Proofs.Sheet.Splitting

/-!
# The colon among the units of a statement

The end of a statement is looked for unit by unit, and its colon is not: that
search knows strings and parentheses, but it reads the text of a comment, and
the character behind a backslash outside of strings, as code. Both find the
same colon as long as the search comes out of every such unit as it went in.
-/

set_option autoImplicit false

namespace StyleValues

open Text

/-- The units of a text, each with the depth of the open parentheses in front of it. -/
def unitsFrom (depth : Nat) : Text → List (Nat × Text)
  | [] => []
  | c :: rest =>
    match h : takeUnit c rest with
    | .error _ => []
    | .ok (unit, after) =>
      have : after.length < (c :: rest).length := takeUnit_length_lt h
      (depth, unit) :: unitsFrom (depthBehind depth c) after
termination_by s => s.length
decreasing_by exact this

/-- A colon that stands by itself, outside of parentheses and all units of more than one character. -/
def colonUnit : Nat × Text := (0, [':'])

def frontOfColon? : List (Nat × Text) → Option Text
  | [] => none
  | u :: rest => if u = colonUnit then some [] else (frontOfColon? rest).map (u.2 ++ ·)

def unitColon? (text : Text) : Option Nat := (frontOfColon? (unitsFrom 0 text)).map byteLength

def unitsBeforeColon (text : Text) : List (Nat × Text) :=
  (unitsFrom 0 text).takeWhile (· != colonUnit)

/-- Whether a unit is one that the search for a colon does not know, an escape or a comment. -/
def isOverlooked (unit : Text) : Bool := unit.head? == some '\\' || ['/', '*'].isPrefixOf unit

/-- Whether the search finds nothing in a unit at that depth and goes on behind it as in front of it. -/
def ColonSearch.passesOver (depth : Nat) (unit : Text) : Bool :=
  ((plain depth).split? unit).isNone && unit.foldl step (plain depth) == plain depth

/-! ### Units -/

section
variable {depth : Nat} {c : Char} {rest unit after : Text}

theorem unitsFrom_nil : unitsFrom depth [] = [] := by
  rw [unitsFrom]

theorem unitsFrom_of_unit (h : takeUnit c rest = .ok (unit, after)) :
    unitsFrom depth (c :: rest) = (depth, unit) :: unitsFrom (depthBehind depth c) after := by
  rw [unitsFrom]
  split
  · next h' => rw [h] at h'; cases h'
  · next h' => rw [h] at h'; cases h'; rfl

theorem cutUnits_of_cutBehind {text body : Text}
    (h : cutBehind unit (cutUnits depth text) = .ok ⟨body, .endOfText, []⟩) :
    ∃ body', cutUnits depth text = .ok ⟨body', .endOfText, []⟩ := by
  cases hr : cutUnits depth text with
  | error fault => rw [hr] at h; cases h
  | ok cut =>
    rw [hr] at h
    obtain ⟨body', terminator, rest⟩ := cut
    cases h
    exact ⟨body', rfl⟩

theorem takeUnit_cases (h : takeUnit c rest = .ok (unit, after)) :
    (c = '\\' ∧ unit = c :: rest.take 1 ∧ after = rest.drop 1) ∨
      (isQuote c ∧ ∃ value, takeQuoted? c false rest = some (value, after) ∧
        unit = c :: (value ++ [c])) ∨
      (c = '/' ∧ ∃ inside tail, rest = '*' :: tail ∧ breakAt? ['*', '/'] tail = some (inside, after) ∧
        unit = '/' :: '*' :: (inside ++ ['*', '/'])) ∨
      (c ≠ '\\' ∧ ¬ isQuote c ∧ unit = [c] ∧ after = rest) := by
  rw [takeUnit] at h
  split at h
  · next hb =>
    cases h
    exact .inl ⟨hb, rfl, rfl⟩
  · next hb =>
    split at h
    · next hq =>
      split at h <;> cases h
      next hv => exact .inr (.inl ⟨hq, _, hv, rfl⟩)
    · next hq =>
      split at h
      · next hc =>
        obtain ⟨hslash, hstar⟩ := hc
        obtain ⟨tail, rfl⟩ := List.head?_eq_some_iff.mp hstar
        split at h <;> cases h
        next hi => exact .inr (.inr (.inl ⟨hslash, _, tail, rfl, hi, rfl⟩))
      · cases h
        exact .inr (.inr (.inr ⟨hb, hq, rfl, rfl⟩))

end

/-! ### The search -/

namespace ColonSearch

section
variable {s : ColonSearch} {depth : Nat} {quote c : Char} {front unit rest after value : Text}

theorem split?_append_of_none (h : s.split? front = none) (rest : Text) :
    s.split? (front ++ rest) =
      ((front.foldl step s).split? rest).map fun parts => (front ++ parts.1, parts.2) := by
  induction front generalizing s with
  | nil => exact Option.map_id'.symm
  | cons c front ih =>
    rw [split?] at h
    split at h
    · cases h
    · next hf =>
      rw [Option.map_eq_none_iff] at h
      rw [List.cons_append, split?, if_neg hf, ih h, Option.map_map]
      rfl

theorem passesOver_iff : passesOver depth unit ↔
    (plain depth).split? unit = none ∧ unit.foldl step (plain depth) = plain depth := by
  simp [passesOver]

theorem split?_cons_of_not_finds (h : s.finds c = false) (hn : (s.step c).split? rest = none) :
    s.split? (c :: rest) = none := by
  rw [split?, h, hn]
  rfl

theorem passes_quotedBody (hq : quote ≠ '\\') (h : QuotedBody quote value) :
    (quoted depth quote).split? (value ++ [quote]) = none ∧
      (value ++ [quote]).foldl step (quoted depth quote) = plain depth := by
  induction h with
  | nil =>
    have hs : (quoted depth quote).step quote = plain depth := by
      rw [step, if_neg hq, if_pos rfl]
    exact ⟨split?_cons_of_not_finds rfl (by rw [hs]; rfl), hs⟩
  | @char c rest hc hb _ ih =>
    have hs : (quoted depth quote).step c = quoted depth quote := by
      rw [step, if_neg hb, if_neg hc]
    refine ⟨split?_cons_of_not_finds rfl (by rw [hs]; exact ih.1), ?_⟩
    rw [List.cons_append, List.foldl_cons, hs, ih.2]
  | escape c _ ih =>
    exact ⟨split?_cons_of_not_finds rfl (split?_cons_of_not_finds rfl ih.1), ih.2⟩

theorem step_plain_of_not_isQuote (hq : ¬ isQuote c) :
    (plain depth).step c = plain (depthBehind depth c) := by
  have hq' : ¬ (c = '"' ∨ c = '\'') := by simpa [isQuote] using hq
  rw [step, if_neg hq', depthBehind]
  split
  · rfl
  · split <;> rfl

/-- The search takes every unit as the statement does, if it comes out of those that it does not
know as it went in. -/
theorem passes_unit (h : takeUnit c rest = .ok (unit, after)) (hc : (depth, unit) ≠ colonUnit)
    (ho : isOverlooked unit → passesOver depth unit) :
    (plain depth).split? unit = none ∧ unit.foldl step (plain depth) = plain (depthBehind depth c) := by
  rcases takeUnit_cases h with ⟨rfl, rfl, -⟩ | ⟨hq, value, hv, rfl⟩ | ⟨rfl, inside, tail, -, -, rfl⟩ |
    ⟨hb, hq, rfl, rfl⟩
  · exact passesOver_iff.mp (ho rfl)
  · have hbody : (quoted depth c).split? (value ++ [c]) = none ∧
        (value ++ [c]).foldl step (quoted depth c) = plain depth :=
      passes_quotedBody (by rintro rfl; cases hq) (quotedBody_of_takeQuoted? hv)
    have hs : (plain depth).step c = quoted depth c := if_pos (isQuote_cases hq)
    have hd : depthBehind depth c = depth := by rcases isQuote_cases hq with rfl | rfl <;> rfl
    have hf : (plain depth).finds c = false := by
      rcases isQuote_cases hq with rfl | rfl <;> simp [finds]
    refine ⟨split?_cons_of_not_finds hf (by rw [hs]; exact hbody.1), ?_⟩
    rw [List.foldl_cons, hs, hbody.2, hd]
  · exact passesOver_iff.mp (ho rfl)
  · refine ⟨split?_cons_of_not_finds ?_ rfl, step_plain_of_not_isQuote hq⟩
    rw [← Bool.not_eq_true, finds_plain_iff]
    rintro ⟨rfl, rfl⟩
    exact hc rfl

theorem split?_unit (h : takeUnit c rest = .ok (unit, after)) (hc : (depth, unit) ≠ colonUnit)
    (ho : isOverlooked unit → passesOver depth unit) :
    (plain depth).split? (c :: rest) = ((plain (depthBehind depth c)).split? after).map
      fun parts => (unit ++ parts.1, parts.2) := by
  obtain ⟨hn, hs⟩ := passes_unit h hc ho
  rw [← (takeUnit_append h).1, split?_append_of_none hn, hs]

end

end ColonSearch

/-- If a text can be read by units to its end, the search finds the first colon among them. -/
theorem split?_eq_frontOfColon? {depth : Nat} {text body : Text}
    (h : cutUnits depth text = .ok ⟨body, .endOfText, []⟩)
    (ho : ∀ u ∈ (unitsFrom depth text).takeWhile (· != colonUnit),
      isOverlooked u.2 → ColonSearch.passesOver u.1 u.2) :
    ((ColonSearch.plain depth).split? text).map Prod.fst = frontOfColon? (unitsFrom depth text) := by
  induction depth, text using cutUnits.induct generalizing body with
  | case1 depth => rw [unitsFrom_nil]; rfl
  | case2 depth c rest hc =>
    rw [cutUnits_of_stop hc] at h
    simp at h
  | case3 depth c rest hc fault hu =>
    rw [cutUnits_of_error hc hu] at h
    cases h
  | case4 depth c rest hc unit after hu _ ih =>
    rw [unitsFrom_of_unit hu] at ho ⊢
    rw [frontOfColon?]
    by_cases hcolon : (depth, unit) = colonUnit
    · obtain ⟨rfl, rfl⟩ := Prod.mk.inj hcolon
      obtain rfl : c = ':' := (List.cons.inj (takeUnit_append hu).1).1.symm
      rw [if_pos hcolon]
      rfl
    · rw [List.takeWhile_cons_of_pos (by simpa using hcolon), List.forall_mem_cons] at ho
      rw [cutUnits_of_unit hc hu] at h
      obtain ⟨body', hr⟩ := cutUnits_of_cutBehind h
      rw [if_neg hcolon, ColonSearch.split?_unit hu hcolon ho.1, ← ih hr ho.2, Option.map_map,
        Option.map_map]
      rfl

/-! ### Closed texts -/

theorem cutUnits_of_closed {text : Text}
    (h : statementEnd (text ++ [';']) 0 = .ok (text.byteLength, .semicolon)) :
    cutUnits 0 text = .ok ⟨text, .endOfText, []⟩ := by
  have hcut := cutStatement_of_selfContained (closed_iff.mp h) (Or.inl (Eq.refl ';')) []
  rw [← cutStatement_eq_cutUnits]
  exact cutStatement_body hcut (by simp [Terminator.ofChar])

theorem closed_of_cutUnits {text : Text}
    (h : cutUnits 0 (text ++ [';']) = .ok ⟨text, .semicolon, [';']⟩) :
    statementEnd (text ++ [';']) 0 = .ok (text.byteLength, .semicolon) := by
  rw [statementEnd, dropBytes_zero, Nat.sub_self, cutStatement_eq_cutUnits, h]
  simp only [Nat.zero_add]

/-! ### Parentheses and colons -/

def isPlainMark (c : Char) : Bool := c == '(' || c == ')' || c == ':'

section
variable {depth : Nat} {c : Char} {marks : Text}

theorem isPlainMark_cases (h : isPlainMark c) : c = '(' ∨ c = ')' ∨ c = ':' := by
  simpa [isPlainMark, or_assoc] using h

theorem takeUnit_mark (hc : isPlainMark c) (rest : Text) : takeUnit c rest = .ok ([c], rest) := by
  rcases isPlainMark_cases hc with rfl | rfl | rfl <;> rfl

theorem not_stop_of_mark (hc : isPlainMark c) : ¬ (depth = 0 ∧ (c = ';' ∨ c = '{' ∨ c = '}')) := by
  rcases isPlainMark_cases hc with rfl | rfl | rfl <;> simp

theorem cutUnits_marks (h : marks.all isPlainMark) {rest : Text} {cut : StatementCut}
    (hr : cutUnits (marks.foldl depthBehind depth) rest = .ok cut) :
    cutUnits depth (marks ++ rest) = .ok (cut.prepend marks) := by
  induction marks generalizing depth with
  | nil => exact hr
  | cons c marks ih =>
    rw [List.all_cons, Bool.and_eq_true] at h
    rw [List.cons_append, cutUnits_of_unit (not_stop_of_mark h.1) (takeUnit_mark h.1 _), ih h.2 hr]
    rfl

theorem not_isOverlooked_of_mem_marks (h : marks.all isPlainMark) :
    ∀ u ∈ unitsFrom depth marks, ¬ isOverlooked u.2 := by
  induction marks generalizing depth with
  | nil => rw [unitsFrom_nil]; simp
  | cons c marks ih =>
    rw [List.all_cons, Bool.and_eq_true] at h
    rw [unitsFrom_of_unit (takeUnit_mark h.1 _), List.forall_mem_cons]
    refine ⟨?_, ih h.2⟩
    rcases isPlainMark_cases h.1 with rfl | rfl | rfl <;> simp [isOverlooked]

theorem foldl_depthBehind_open (k : Nat) :
    (List.replicate k '(').foldl depthBehind depth = depth + k := by
  induction k generalizing depth with
  | zero => rfl
  | succ k ih =>
    have hd : depthBehind depth '(' = depth + 1 := rfl
    rw [List.replicate_succ, List.foldl_cons, ih, hd, Nat.add_right_comm, Nat.add_assoc]

theorem foldl_depthBehind_close (k : Nat) :
    (List.replicate k ')').foldl depthBehind depth = depth - k := by
  induction k generalizing depth with
  | zero => rfl
  | succ k ih =>
    have hd : depthBehind depth ')' = depth - 1 := rfl
    rw [List.replicate_succ, List.foldl_cons, ih, hd, Nat.sub_sub, Nat.add_comm 1]

theorem all_isPlainMark_replicate (h : isPlainMark c) (k : Nat) :
    (List.replicate k c).all isPlainMark := by
  rw [List.all_eq_true]
  intro d hd
  rwa [List.eq_of_mem_replicate hd]

def closings (front behind : Nat) : Text :=
  List.replicate front ')' ++ ':' :: List.replicate behind ')'

theorem all_isPlainMark_closings (front behind : Nat) : (closings front behind).all isPlainMark := by
  rw [closings, List.all_append, List.all_cons, all_isPlainMark_replicate rfl,
    all_isPlainMark_replicate rfl]
  rfl

theorem foldl_depthBehind_closings (front behind : Nat) :
    (closings front behind).foldl depthBehind depth = depth - (front + behind) := by
  have hd : depthBehind (depth - front) ':' = depth - front := rfl
  rw [closings, List.foldl_append, List.foldl_cons, foldl_depthBehind_close, foldl_depthBehind_close,
    hd, Nat.sub_sub]

end

/-! ### The units that must not be overlooked -/

namespace ColonSearch

variable {depth front behind : Nat}

theorem split?_replicate (c : Char) (k : Nat) (hc : c ≠ ':') (s : ColonSearch) :
    s.split? (List.replicate k c) = none := by
  induction k generalizing s with
  | zero => rfl
  | succ k ih =>
    refine split?_cons_of_not_finds ?_ (ih _)
    simp [finds, hc]

theorem foldl_step_close (k : Nat) :
    (List.replicate k ')').foldl step (plain depth) = plain (depth - k) := by
  induction k generalizing depth with
  | zero => rfl
  | succ k ih =>
    have hd : (plain depth).step ')' = plain (depth - 1) := rfl
    rw [List.replicate_succ, List.foldl_cons, hd, ih, Nat.sub_sub, Nat.add_comm 1]

theorem foldl_step_open (k : Nat) :
    (List.replicate k '(').foldl step (plain depth) = plain (depth + k) := by
  induction k generalizing depth with
  | zero => rfl
  | succ k ih =>
    have hd : (plain depth).step '(' = plain (depth + 1) := rfl
    rw [List.replicate_succ, List.foldl_cons, hd, ih, Nat.add_right_comm, Nat.add_assoc]

theorem split?_closings_of_le (h : depth ≤ front) :
    (plain depth).split? (closings front behind) =
      some (List.replicate front ')', List.replicate behind ')') := by
  rw [closings, split?_append_of_none (split?_replicate ')' front (by decide) _), foldl_step_close,
    Nat.sub_eq_zero_of_le h]
  simp [split?, finds]

theorem split?_closings_of_lt (h : front < depth) :
    (plain depth).split? (closings front behind) = none := by
  have hf : (plain (depth - front)).finds ':' = false := by
    simp [finds, Nat.sub_eq_zero_iff_le, h]
  rw [closings, split?_append_of_none (split?_replicate ')' front (by decide) _), foldl_step_close,
    split?_cons_of_not_finds hf (split?_replicate ')' behind (by decide) _)]
  rfl

theorem split?_quoted {depth : Nat} {quote : Char} {text : Text} (hq : quote ∉ text)
    (hb : '\\' ∉ text) : (quoted depth quote).split? text = none := by
  induction text with
  | nil => rfl
  | cons c text ih =>
    rw [List.mem_cons, not_or] at hq hb
    have hs : (quoted depth quote).step c = quoted depth quote := by
      rw [step, if_neg (Ne.symm hb.1), if_neg (Ne.symm hq.1)]
    exact split?_cons_of_not_finds rfl (by rw [hs]; exact ih hq.2 hb.2)

theorem Quoting.foldl {s : ColonSearch} (h : s.Quoting) (text : Text) :
    (text.foldl ColonSearch.step s).Quoting := by
  induction text generalizing s with
  | nil => exact h
  | cons c text ih => exact ih (h.step c)

theorem exists_closings {s : ColonSearch} (hq : s.Quoting) (hs : s ≠ plain depth) :
    ∃ front behind, front + behind = depth ∧
      (s.split? (closings front behind)).isSome ≠
        ((plain depth).split? (closings front behind)).isSome := by
  have hopen : ∀ quote : Char, isQuote quote → quote ∉ closings depth 0 := by
    intro quote hquote
    rcases isQuote_cases hquote with rfl | rfl <;> simp [closings, List.mem_replicate]
  have hback : '\\' ∉ closings depth 0 := by simp [closings, List.mem_replicate]
  have hfound : ((plain depth).split? (closings depth 0)).isSome := by
    rw [split?_closings_of_le (le_refl depth)]
    rfl
  cases s with
  | plain found =>
    rcases Nat.lt_or_gt_of_ne (fun he : found = depth => hs (by rw [he])) with hlt | hgt
    · refine ⟨found, depth - found, by omega, ?_⟩
      rw [split?_closings_of_le (le_refl found), split?_closings_of_lt hlt]
      simp
    · refine ⟨depth, 0, rfl, ?_⟩
      rw [split?_closings_of_lt hgt, split?_closings_of_le (le_refl depth)]
      simp
  | quoted found quote =>
    refine ⟨depth, 0, rfl, ?_⟩
    rw [split?_quoted (hopen quote hq) hback, hfound]
    simp
  | escape found quote =>
    refine ⟨depth, 0, rfl, ?_⟩
    have hnone : (escape found quote).split? (closings depth 0) = none := by
      obtain ⟨c, tail, ht⟩ : ∃ c tail, closings depth 0 = c :: tail :=
        List.exists_cons_of_ne_nil (by simp [closings])
      rw [ht] at hback hopen ⊢
      exact split?_cons_of_not_finds rfl
        (split?_quoted (fun h => hopen quote hq (List.mem_cons_of_mem c h))
          (fun h => hback (List.mem_cons_of_mem c h)))
    rw [hnone, hfound]
    simp

/-- What the search does not pass over puts it off some colon. -/
theorem exists_closings_of_not_passesOver {unit : Text} (h : ¬ passesOver depth unit) :
    ∃ front behind, front + behind = depth ∧
      ((plain depth).split? (unit ++ closings front behind)).map (fun parts => parts.1.byteLength) ≠
        ((plain depth).split? (closings front behind)).map
          fun parts => (unit ++ parts.1).byteLength := by
  cases hu : (plain depth).split? unit with
  | some parts =>
    obtain ⟨left, right⟩ := parts
    refine ⟨depth, 0, rfl, ?_⟩
    rw [split?_append_of_some hu, split?_closings_of_le (le_refl depth)]
    intro he
    have hl := Option.some.inj he
    have hcolon := Char.utf8Size_pos ':'
    simp only [← split?_append hu, byteLength_append, byteLength] at hl
    omega
  | none =>
    have hs : unit.foldl step (plain depth) ≠ plain depth := fun he => h (passesOver_iff.mpr ⟨hu, he⟩)
    obtain ⟨front, behind, hsum, hne⟩ := exists_closings (Quoting.foldl (s := plain depth) trivial unit) hs
    refine ⟨front, behind, hsum, fun he => hne ?_⟩
    rw [split?_append_of_none hu] at he
    simpa using congrArg Option.isSome he

end ColonSearch

section
variable {depth : Nat} {c : Char} {rest unit after : Text}

theorem takeUnit_of_isOverlooked (h : takeUnit c rest = .ok (unit, after)) (ho : isOverlooked unit)
    (hne : unit ≠ ['\\']) : (c = '\\' ∨ c = '/') ∧
      ∃ tail, unit = c :: tail ∧ ∀ next, takeUnit c (tail ++ next) = .ok (unit, next) := by
  rcases takeUnit_cases h with ⟨rfl, rfl, -⟩ | ⟨hq, value, -, rfl⟩ | ⟨rfl, inside, tail, -, hi, rfl⟩ |
    ⟨hb, -, rfl, -⟩
  · cases rest with
    | nil => exact absurd rfl hne
    | cons d rest => exact ⟨.inl rfl, [d], rfl, fun _ => rfl⟩
  · rcases isQuote_cases hq with rfl | rfl <;> simp [isOverlooked] at ho
  · refine ⟨.inr rfl, '*' :: (inside ++ ['*', '/']), rfl, fun next => ?_⟩
    have hbreak := breakAt?_congr hi next
    rw [takeUnit, if_neg (by decide), if_neg (by decide), if_pos ⟨rfl, rfl⟩]
    simp only [List.cons_append, List.tail_cons, List.append_assoc, List.nil_append] at hbreak ⊢
    rw [hbreak]
  · simp [isOverlooked, hb] at ho

theorem depthBehind_of_overlooked (hc : c = '\\' ∨ c = '/') : depthBehind depth c = depth := by
  rcases hc with rfl | rfl <;> rfl

theorem cutUnits_overlooked (h : takeUnit c rest = .ok (unit, after)) (ho : isOverlooked unit)
    (hne : unit ≠ ['\\']) (next : Text) :
    cutUnits depth (unit ++ next) = cutBehind unit (cutUnits depth next) := by
  obtain ⟨hc, tail, rfl, hagain⟩ := takeUnit_of_isOverlooked h ho hne
  have hstop : ¬ (depth = 0 ∧ (c = ';' ∨ c = '{' ∨ c = '}')) := by rcases hc with rfl | rfl <;> simp
  rw [List.cons_append, cutUnits_of_unit hstop (hagain next), depthBehind_of_overlooked hc]

theorem unitsFrom_overlooked (h : takeUnit c rest = .ok (unit, after)) (ho : isOverlooked unit)
    (hne : unit ≠ ['\\']) (next : Text) :
    unitsFrom depth (unit ++ next) = (depth, unit) :: unitsFrom depth next := by
  obtain ⟨hc, tail, rfl, hagain⟩ := takeUnit_of_isOverlooked h ho hne
  rw [List.cons_append, unitsFrom_of_unit (hagain next), depthBehind_of_overlooked hc]

theorem ne_colonUnit_of_isOverlooked (ho : isOverlooked unit) : (depth, unit) ≠ colonUnit := by
  intro he
  rw [(Prod.mk.inj he).2] at ho
  cases ho

end

section
variable {depth : Nat}

theorem unitsFrom_open (k : Nat) (text : Text) : unitsFrom depth (List.replicate (k + 1) '(' ++ text) =
    (depth, ['(']) :: unitsFrom (depth + 1) (List.replicate k '(' ++ text) :=
  unitsFrom_of_unit (takeUnit_mark rfl _)

theorem frontOfColon?_open (k : Nat) (text : Text) :
    frontOfColon? (unitsFrom depth (List.replicate k '(' ++ text)) =
      (frontOfColon? (unitsFrom (depth + k) text)).map (List.replicate k '(' ++ ·) := by
  induction k generalizing depth with
  | zero => exact Option.map_id'.symm
  | succ k ih =>
    rw [unitsFrom_open, frontOfColon?, if_neg (by simp [colonUnit]), ih, Option.map_map,
      Nat.add_assoc, Nat.add_comm 1]
    rfl

theorem overlooked_open (k : Nat) (text : Text) :
    ((unitsFrom depth (List.replicate k '(' ++ text)).takeWhile (· != colonUnit)).filter
        (isOverlooked ·.2) =
      ((unitsFrom (depth + k) text).takeWhile (· != colonUnit)).filter (isOverlooked ·.2) := by
  induction k generalizing depth with
  | zero => rfl
  | succ k ih =>
    rw [unitsFrom_open, List.takeWhile_cons_of_pos (by simp [colonUnit]),
      List.filter_cons_of_neg (by simp [isOverlooked]), ih, Nat.add_assoc, Nat.add_comm 1]

end

section
variable {depth front behind : Nat}

theorem cutUnits_closings (h : front + behind = depth) :
    cutUnits depth (closings front behind) = .ok ⟨closings front behind, .endOfText, []⟩ ∧
      cutUnits depth (closings front behind ++ [';']) =
        .ok ⟨closings front behind, .semicolon, [';']⟩ := by
  have hmarks := all_isPlainMark_closings front behind
  have hz : (closings front behind).foldl depthBehind depth = 0 := by
    rw [foldl_depthBehind_closings, h, Nat.sub_self]
  constructor
  · have hend : cutUnits depth (closings front behind ++ []) =
        .ok (StatementCut.prepend (closings front behind) ⟨[], .endOfText, []⟩) :=
      cutUnits_marks hmarks cutUnits_nil
    rw [List.append_nil] at hend
    rw [hend, StatementCut.prepend, List.append_nil]
  · rw [cutUnits_marks hmarks (cutUnits_of_stop ⟨hz, Or.inl rfl⟩), StatementCut.prepend,
      List.append_nil]
    rfl

theorem frontOfColon?_closings (h : front + behind = depth) :
    frontOfColon? (unitsFrom depth (closings front behind)) =
      ((ColonSearch.plain depth).split? (closings front behind)).map Prod.fst := by
  refine (split?_eq_frontOfColon? (cutUnits_closings h).1 fun u hu ho => absurd ho ?_).symm
  exact not_isOverlooked_of_mem_marks (all_isPlainMark_closings front behind) u
    ((List.takeWhile_sublist _).subset hu)

end

/-- Every unit that the search does not pass over, as the only one that it overlooks, hides the
colon of some statement or makes up one. -/
theorem exists_closed_of_not_passesOver {depth : Nat} {c : Char} {rest unit after : Text}
    (hu : takeUnit c rest = .ok (unit, after)) (ho : isOverlooked unit)
    (hp : ¬ ColonSearch.passesOver depth unit) :
    ∃ text, statementEnd (text ++ [';']) 0 = .ok (text.byteLength, .semicolon) ∧
      (unitsBeforeColon text).filter (isOverlooked ·.2) = [(depth, unit)] ∧
      findColon? text ≠ unitColon? text := by
  obtain ⟨front, behind, hsum, hne⟩ := ColonSearch.exists_closings_of_not_passesOver hp
  have hlone : unit ≠ ['\\'] := by
    rintro rfl
    exact hp (ColonSearch.passesOver_iff.mpr ⟨by simp [ColonSearch.split?, ColonSearch.finds], rfl⟩)
  have hcolon : (depth, unit) ≠ colonUnit := ne_colonUnit_of_isOverlooked ho
  have hmarks := all_isPlainMark_closings front behind
  have hdepth : (List.replicate depth '(').foldl depthBehind 0 = depth := by
    rw [foldl_depthBehind_open, Nat.zero_add]
  have hunits : unitsFrom depth (unit ++ closings front behind) =
      (depth, unit) :: unitsFrom depth (closings front behind) :=
    unitsFrom_overlooked hu ho hlone (closings front behind)
  refine ⟨List.replicate depth '(' ++ (unit ++ closings front behind), ?_, ?_, ?_⟩
  · have hbody : cutUnits depth (unit ++ (closings front behind ++ [';'])) =
        .ok ⟨unit ++ closings front behind, .semicolon, [';']⟩ := by
      rw [cutUnits_overlooked hu ho hlone, (cutUnits_closings hsum).2]
      rfl
    rw [← hdepth] at hbody
    refine closed_of_cutUnits ?_
    rw [List.append_assoc, List.append_assoc,
      cutUnits_marks (all_isPlainMark_replicate rfl depth) hbody]
    rfl
  · rw [unitsBeforeColon, overlooked_open, Nat.zero_add, hunits,
      List.takeWhile_cons_of_pos (by simpa using hcolon), List.filter_cons_of_pos (by exact ho)]
    congr 1
    rw [List.filter_eq_nil_iff]
    exact fun u hu => not_isOverlooked_of_mem_marks hmarks u ((List.takeWhile_sublist _).subset hu)
  · have hopen : (ColonSearch.plain 0).split? (List.replicate depth '(') = none :=
      ColonSearch.split?_replicate '(' depth (by decide) _
    intro he
    refine hne (Option.map_injective (add_right_injective (byteLength (List.replicate depth '('))) ?_)
    rw [findColon?, splitAtColon?, ColonSearch.split?_append_of_none hopen,
      ColonSearch.foldl_step_open, Nat.zero_add, unitColon?, frontOfColon?_open, Nat.zero_add, hunits,
      frontOfColon?, if_neg hcolon, frontOfColon?_closings hsum] at he
    simp only [Option.map_map, Function.comp_def, byteLength_append] at he ⊢
    exact he

/-! ### The colon of a closed text -/

/-- In a closed text the colon that is searched for is the first one that the reading of the
statement meets, as long as the search passes over each escape and comment in front of it. No unit
can be spared from that condition. -/
theorem findColon?_eq_unitColon? {text : Text}
    (h : statementEnd (text ++ [';']) 0 = .ok (text.byteLength, .semicolon)) :
    ((∀ u ∈ unitsBeforeColon text, isOverlooked u.2 → ColonSearch.passesOver u.1 u.2) →
      findColon? text = unitColon? text) ∧
    ∀ depth c rest unit after, takeUnit c rest = .ok (unit, after) → isOverlooked unit →
      ¬ ColonSearch.passesOver depth unit →
      ∃ text, statementEnd (text ++ [';']) 0 = .ok (text.byteLength, .semicolon) ∧
        (unitsBeforeColon text).filter (isOverlooked ·.2) = [(depth, unit)] ∧
        findColon? text ≠ unitColon? text := by
  refine ⟨fun hpass => ?_, fun _ _ _ _ _ => exists_closed_of_not_passesOver⟩
  rw [findColon?, splitAtColon?, unitColon?,
    ← split?_eq_frontOfColon? (cutUnits_of_closed h) hpass, Option.map_map]
  rfl

/-- A comment that is passed over, and one with an apostrophe that is not. -/
theorem findColon?_behind_comment :
    (statementEnd ("/* a */b:c".toList ++ [';']) 0 = .ok (10, .semicolon) ∧
      (∀ u ∈ unitsBeforeColon "/* a */b:c".toList, isOverlooked u.2 →
        ColonSearch.passesOver u.1 u.2) ∧
      findColon? "/* a */b:c".toList = unitColon? "/* a */b:c".toList) ∧
    (takeUnit '/' "*'*/".toList = .ok ("/*'*/".toList, []) ∧ isOverlooked "/*'*/".toList ∧
      ¬ ColonSearch.passesOver 0 "/*'*/".toList) ∧
    ∃ text, statementEnd (text ++ [';']) 0 = .ok (text.byteLength, .semicolon) ∧
      (unitsBeforeColon text).filter (isOverlooked ·.2) = [(0, "/*'*/".toList)] ∧
      findColon? text ≠ unitColon? text := by
  have hclosed : statementEnd ("/* a */b:c".toList ++ [';']) 0 = .ok (10, .semicolon) := by cbv
  have hunits : unitsBeforeColon "/* a */b:c".toList =
      [(0, "/* a */".toList), (0, ['b'])] := by cbv
  have hpass : ∀ u ∈ unitsBeforeColon "/* a */b:c".toList, isOverlooked u.2 →
      ColonSearch.passesOver u.1 u.2 := by
    rw [hunits]
    decide
  obtain ⟨heq, hne⟩ := findColon?_eq_unitColon? hclosed
  exact ⟨⟨hclosed, hpass, heq hpass⟩, ⟨by cbv, by decide, by decide⟩,
    hne 0 '/' "*'*/".toList "/*'*/".toList [] (by cbv) (by decide)
      (by decide)⟩

/-- An apostrophe in a comment hides the colon behind it. -/
theorem findColon?_ne_unitColon? :
    statementEnd ("/*'*/a:b".toList ++ [';']) 0 = .ok (8, .semicolon) ∧
      findColon? "/*'*/a:b".toList = none ∧ unitColon? "/*'*/a:b".toList = some 6 := by
  refine ⟨?_, ?_, ?_⟩ <;> cbv

end StyleValues
