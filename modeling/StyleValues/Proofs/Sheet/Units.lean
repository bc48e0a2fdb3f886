import StyleValues.Proofs.Definition.Lexing
import StyleValues.Sheet.Statement

/-!
# Statements unit by unit

The end of a statement can also be looked for unit by unit: an escape, a quoted
string and a comment are passed over as a whole, and only characters between
them count. This finds the same end and the same faults as reading character by
character (`cutStatement_eq_cutUnits`).
-/

set_option autoImplicit false

namespace StyleValues

open Text

def takeUnit (c : Char) (rest : Text) : Except Fault (Text × Text) :=
  if c = '\\' then .ok (c :: rest.take 1, rest.drop 1)
  else if isQuote c then
    match takeQuoted? c false rest with
    | some (value, after) => .ok (c :: (value ++ [c]), after)
    | none => .error (.unclosedString 0)
  else if c = '/' ∧ rest.head? = some '*' then
    match breakAt? ['*', '/'] rest.tail with
    | some (inside, after) => .ok ('/' :: '*' :: (inside ++ ['*', '/']), after)
    | none => .error (.unclosedComment 0)
  else .ok ([c], rest)

theorem takeUnit_append {c : Char} {rest unit after : Text}
    (h : takeUnit c rest = .ok (unit, after)) : unit ++ after = c :: rest ∧ unit ≠ [] := by
  rw [takeUnit] at h
  split at h
  · cases h
    exact ⟨by rw [List.cons_append, List.take_append_drop], List.cons_ne_nil _ _⟩
  · split at h
    · split at h <;> cases h
      next hq =>
      exact ⟨by rw [← takeQuoted?_append hq]; simp, List.cons_ne_nil _ _⟩
    · split at h
      · next hc =>
        obtain ⟨rfl, hs⟩ := hc
        obtain ⟨tail, rfl⟩ := List.head?_eq_some_iff.mp hs
        split at h <;> cases h
        next hb =>
        rw [List.tail_cons] at hb
        exact ⟨by rw [← breakAt?_append hb]; simp, List.cons_ne_nil _ _⟩
      · cases h
        exact ⟨rfl, List.cons_ne_nil _ _⟩

theorem takeUnit_length_lt {c : Char} {rest unit after : Text}
    (h : takeUnit c rest = .ok (unit, after)) : after.length < (c :: rest).length := by
  obtain ⟨he, hn⟩ := takeUnit_append h
  have hp := List.length_pos_iff.mpr hn
  rw [← he, List.length_append]
  omega

def depthBehind (depth : Nat) (c : Char) : Nat :=
  if c = '(' then depth + 1 else if c = ')' then depth - 1 else depth

def StatementCut.prepend (front : Text) (cut : StatementCut) : StatementCut :=
  { cut with body := front ++ cut.body }

def cutBehind (front : Text) : Except Fault StatementCut → Except Fault StatementCut
  | .ok cut => .ok (cut.prepend front)
  | .error fault => .error (fault.shift front.byteLength)

/-- Cuts a text in front of the first semicolon or brace outside parentheses and units. -/
def cutUnits (depth : Nat) : Text → Except Fault StatementCut
  | [] => .ok ⟨[], .endOfText, []⟩
  | c :: rest =>
    if depth = 0 ∧ (c = ';' ∨ c = '{' ∨ c = '}') then .ok ⟨[], .ofChar c, c :: rest⟩
    else
      match h : takeUnit c rest with
      | .error fault => .error fault
      | .ok (unit, after) =>
        have : after.length < (c :: rest).length := takeUnit_length_lt h
        cutBehind unit (cutUnits (depthBehind depth c) after)
termination_by s => s.length
decreasing_by exact this

section
variable {depth : Nat} {c : Char} {rest unit after : Text}

theorem cutUnits_nil : cutUnits depth [] = .ok ⟨[], .endOfText, []⟩ := by
  rw [cutUnits]

theorem cutUnits_of_stop (h : depth = 0 ∧ (c = ';' ∨ c = '{' ∨ c = '}')) :
    cutUnits depth (c :: rest) = .ok ⟨[], .ofChar c, c :: rest⟩ := by
  rw [cutUnits, if_pos h]

theorem cutUnits_of_error {fault : Fault} (h : ¬ (depth = 0 ∧ (c = ';' ∨ c = '{' ∨ c = '}')))
    (hu : takeUnit c rest = .error fault) : cutUnits depth (c :: rest) = .error fault := by
  rw [cutUnits, if_neg h]
  split
  · next hu' => rw [hu] at hu'; cases hu'; rfl
  · next hu' => rw [hu] at hu'; cases hu'

theorem cutUnits_of_unit (h : ¬ (depth = 0 ∧ (c = ';' ∨ c = '{' ∨ c = '}')))
    (hu : takeUnit c rest = .ok (unit, after)) :
    cutUnits depth (c :: rest) = cutBehind unit (cutUnits (depthBehind depth c) after) := by
  rw [cutUnits, if_neg h]
  split
  · next hu' => rw [hu] at hu'; cases hu'
  · next hu' => rw [hu] at hu'; cases hu'; rfl

end

/-! ### Reading on -/

namespace Reading

/-- The mark behind a character: strings and comments are marked where they open. -/
def markBehind (r : Reading) (c : Char) (position mark : Nat) : Nat :=
  match (r.step c).mode with
  | .slash => position
  | .quoted _ => if r.inCode then position else mark
  | _ => mark

def atEnd (r : Reading) (mark : Nat) (body : Text) : Except Fault StatementCut :=
  match r.mode with
  | .quoted _ => .error (.unclosedString mark)
  | .quotedEscape _ => .error (.unclosedString mark)
  | .comment => .error (.unclosedComment mark)
  | .commentStar => .error (.unclosedComment mark)
  | _ => .ok ⟨body, .endOfText, []⟩

/-- Cuts a text at the end of its statement from the middle of it. `position` and `mark` are those
of `openedAt`. -/
def cut (r : Reading) (position mark : Nat) : Text → Except Fault StatementCut
  | [] => r.atEnd mark []
  | c :: rest =>
    if r.stops c then .ok ⟨[], .ofChar c, c :: rest⟩
    else ((r.step c).cut (position + c.utf8Size) (r.markBehind c position mark) rest).map
      (StatementCut.prepend [c])

theorem atEnd_map_prepend (r : Reading) (mark : Nat) (front body : Text) :
    (r.atEnd mark body).map (StatementCut.prepend front) = r.atEnd mark (front ++ body) := by
  obtain ⟨depth, mode⟩ := r
  cases mode <;> rfl

theorem cut_eq (r : Reading) (position mark : Nat) (s : Text) : r.cut position mark s =
    match r.split s with
    | (body, c :: rest) => .ok ⟨body, .ofChar c, c :: rest⟩
    | (body, []) => (body.foldl step r).atEnd (openedAt r position mark body) body := by
  induction s generalizing r position mark with
  | nil => rfl
  | cons c s ih =>
    rw [cut, split]
    split
    · rfl
    · rw [ih]
      rcases (r.step c).split s with ⟨body, _ | ⟨d, rest⟩⟩
      · exact atEnd_map_prepend _ _ [c] body
      · rfl

theorem cutStatement_eq_cut (s : Text) : cutStatement s = cut {} 0 0 s := by
  rw [cut_eq, cutStatement]
  rcases split {} s with ⟨body, _ | ⟨c, rest⟩⟩
  · dsimp only
    rw [openFault?, atEnd]
    cases (body.foldl step {}).mode <;> rfl
  · rfl

theorem map_prepend_map_prepend (front body : Text) (e : Except Fault StatementCut) :
    (e.map (StatementCut.prepend body)).map (StatementCut.prepend front) =
      e.map (StatementCut.prepend (front ++ body)) := by
  cases e with
  | error fault => rfl
  | ok cut => simp [Except.map, StatementCut.prepend]

section
variable {depth position mark : Nat}

theorem cut_cons {r next : Reading} {c : Char} {mark' : Nat} (hs : r.stops c = false)
    (hn : r.step c = next) (hm : r.markBehind c position mark = mark') (s : Text) :
    r.cut position mark (c :: s) =
      (next.cut (position + c.utf8Size) mark' s).map (StatementCut.prepend [c]) := by
  rw [cut, hs, hn, hm]
  rfl

/-- What comes of a string or a comment that is open, and of what stands behind it. -/
def cutClosed (depth position mark : Nat) (fault : Fault) (closing : Text) :
    Option (Text × Text) → Except Fault StatementCut
  | some (inside, after) =>
    (cut ⟨depth, .code⟩ (position + byteLength (inside ++ closing)) mark after).map
      (StatementCut.prepend (inside ++ closing))
  | none => .error fault

theorem cutClosed_cons (fault : Fault) (closing : Text) (c : Char) (found : Option (Text × Text)) :
    (cutClosed depth (position + c.utf8Size) mark fault closing found).map
        (StatementCut.prepend [c]) =
      cutClosed depth position mark fault closing
        (found.map fun parts => (c :: parts.1, parts.2)) := by
  cases found with
  | none => rfl
  | some parts =>
    simp only [Option.map_some, cutClosed, map_prepend_map_prepend, List.cons_append,
      List.nil_append, byteLength, Nat.add_assoc]

theorem cut_quoted {quote : Char} (hq : isQuote quote) (escaped : Bool) (s : Text) :
    cut ⟨depth, if escaped then .quotedEscape quote else .quoted quote⟩ position mark s =
      cutClosed depth position mark (.unclosedString mark) [quote]
        (takeQuoted? quote escaped s) := by
  induction s generalizing escaped position with
  | nil => cases escaped <;> rfl
  | cons c s ih =>
    have hclose : cut ⟨depth, .quoted quote⟩ position mark (quote :: s) =
        (cut ⟨depth, .code⟩ (position + quote.utf8Size) mark s).map
          (StatementCut.prepend [quote]) := by
      rcases isQuote_cases hq with rfl | rfl <;> exact cut_cons rfl rfl rfl s
    cases escaped with
    | true =>
      rw [takeQuoted?, ← cutClosed_cons, ← ih false]
      exact cut_cons rfl rfl rfl s
    | false =>
      rw [takeQuoted?]
      by_cases hc : c = quote
      · rw [if_pos hc, hc]
        exact hclose
      · rw [if_neg hc, ← cutClosed_cons, ← ih]
        by_cases hb : c = '\\'
        · rw [hb]
          exact cut_cons rfl rfl rfl s
        · have hn : (Reading.mk depth (.quoted quote)).step c = ⟨depth, .quoted quote⟩ := by
            rw [step, if_neg hb, if_neg hc]
          rw [beq_eq_false_iff_ne.mpr hb]
          refine cut_cons rfl hn ?_ s
          rw [markBehind, hn]
          rfl

theorem cut_congr {r r' : Reading} {c : Char} (hn : r.step c = r'.step c)
    (hi : r.inCode = r'.inCode) (hd : r.depth = r'.depth) (s : Text) :
    r.cut position mark (c :: s) = r'.cut position mark (c :: s) := by
  rw [cut, cut, stops, stops, markBehind, markBehind, hi, hd, hn]

theorem cut_commentStar {s : Text} (h : s.head? ≠ some '/') :
    cut ⟨depth, .commentStar⟩ position mark s = cut ⟨depth, .comment⟩ position mark s := by
  cases s with
  | nil => rfl
  | cons c s =>
    have hc : c ≠ '/' := fun hc => h (by rw [hc]; rfl)
    have hn : (Reading.mk depth .commentStar).step c = (Reading.mk depth .comment).step c := by
      simp [step, hc]
    exact cut_congr hn rfl rfl s

theorem cut_slash {s : Text} (h : s.head? ≠ some '*') :
    cut ⟨depth, .slash⟩ position mark s = cut ⟨depth, .code⟩ position mark s := by
  cases s with
  | nil => rfl
  | cons c s =>
    have hc : c ≠ '*' := fun hc => h (by rw [hc]; rfl)
    have hn : (Reading.mk depth .slash).step c = (Reading.mk depth .code).step c := by
      simp [step, hc]
    exact cut_congr hn rfl rfl s

theorem breakAt?_comment_of_ne {c : Char} {s : Text} (h : c = '*' → s.head? ≠ some '/') :
    breakAt? ['*', '/'] (c :: s) =
      (breakAt? ['*', '/'] s).map fun parts => (c :: parts.1, parts.2) := by
  have hp : ¬ (['*', '/'] : Text).isPrefixOf (c :: s) := by
    cases s with
    | nil => simp
    | cons d s => simpa using fun hc hd => h hc.symm (by rw [hd]; rfl)
  rw [breakAt?, if_neg hp]

theorem cut_comment (s : Text) :
    cut ⟨depth, .comment⟩ position mark s =
      cutClosed depth position mark (.unclosedComment mark) ['*', '/']
        (breakAt? ['*', '/'] s) := by
  induction s generalizing position with
  | nil => rfl
  | cons c s ih =>
    by_cases hc : c = '*'
    · subst hc
      by_cases hs : s.head? = some '/'
      · obtain ⟨tail, rfl⟩ := List.head?_eq_some_iff.mp hs
        have h1 : cut ⟨depth, .comment⟩ position mark ('*' :: '/' :: tail) =
            (cut ⟨depth, .commentStar⟩ (position + '*'.utf8Size) mark ('/' :: tail)).map
              (StatementCut.prepend ['*']) := cut_cons rfl rfl rfl _
        have h2 : cut ⟨depth, .commentStar⟩ (position + '*'.utf8Size) mark ('/' :: tail) =
            (cut ⟨depth, .code⟩ (position + '*'.utf8Size + '/'.utf8Size) mark tail).map
              (StatementCut.prepend ['/']) := cut_cons rfl rfl rfl _
        rw [h1, h2, map_prepend_map_prepend]
        rfl
      · rw [breakAt?_comment_of_ne fun _ => hs, ← cutClosed_cons, ← ih, ← cut_commentStar hs]
        exact cut_cons rfl rfl rfl s
    · have hn : (Reading.mk depth .comment).step c = ⟨depth, .comment⟩ := by
        rw [step, if_neg hc]
      rw [breakAt?_comment_of_ne fun h => absurd h hc, ← cutClosed_cons, ← ih]
      refine cut_cons rfl hn ?_ s
      rw [markBehind, hn]

theorem stepCode_mode (depth : Nat) (c : Char) : (stepCode depth c).mode = .code ∨
    (stepCode depth c).mode = .escape ∨ (stepCode depth c).mode = .slash ∨
      (stepCode depth c).mode = .quoted c := by
  rw [stepCode]
  repeat' split
  all_goals simp

/-- Only the opening of a string or a comment is marked, so an older mark does not count in
plain code. -/
theorem cut_mark {r : Reading} (hr : r.mode = .code ∨ r.mode = .escape) (mark' : Nat) (s : Text) :
    r.cut position mark s = r.cut position mark' s := by
  induction s generalizing r position mark with
  | nil =>
    obtain ⟨d, mode⟩ := r
    rcases hr with rfl | rfl <;> rfl
  | cons c s ih =>
    obtain ⟨d, mode⟩ := r
    rw [cut, cut]
    split
    · rfl
    · rcases hr with rfl | rfl
      · have hm := stepCode_mode d c
        have hs : (Reading.mk d .code).step c = stepCode d c := rfl
        rw [markBehind, markBehind, hs]
        rcases hm with hm | hm | hm | hm
        · rw [hm, ih (Or.inl hm)]
        · rw [hm, ih (Or.inr hm)]
        · rw [hm]
        · rw [hm]; rfl
      · exact congrArg _ (ih (Or.inl rfl))

end

/-! ### Unit by unit -/

section
variable {depth position mark : Nat}

theorem stops_code_iff {c : Char} : (Reading.mk depth .code).stops c ↔
    depth = 0 ∧ (c = ';' ∨ c = '{' ∨ c = '}') := by
  simp [stops, inCode, or_assoc]

theorem cut_escape (rest : Text) : cut ⟨depth, .code⟩ position mark ('\\' :: rest) =
    (cut ⟨depth, .code⟩ (position + byteLength ('\\' :: rest.take 1)) mark (rest.drop 1)).map
      (StatementCut.prepend ('\\' :: rest.take 1)) := by
  have h1 : cut ⟨depth, .code⟩ position mark ('\\' :: rest) =
      (cut ⟨depth, .escape⟩ (position + 1) mark rest).map (StatementCut.prepend ['\\']) :=
    cut_cons (by simp [stops]) rfl rfl rest
  cases rest with
  | nil => exact h1
  | cons c rest =>
    have h2 : cut ⟨depth, .escape⟩ (position + 1) mark (c :: rest) =
        (cut ⟨depth, .code⟩ (position + 1 + c.utf8Size) mark rest).map
          (StatementCut.prepend [c]) := cut_cons rfl rfl rfl rest
    rw [h1, h2, map_prepend_map_prepend, Nat.add_assoc]
    rfl

theorem cut_string {quote : Char} (hq : isQuote quote) (rest : Text) :
    cut ⟨depth, .code⟩ position mark (quote :: rest) =
      match takeQuoted? quote false rest with
      | some (value, after) =>
        (cut ⟨depth, .code⟩ (position + byteLength (quote :: (value ++ [quote]))) mark after).map
          (StatementCut.prepend (quote :: (value ++ [quote])))
      | none => .error (.unclosedString position) := by
  have h1 : cut ⟨depth, .code⟩ position mark (quote :: rest) =
      (cut ⟨depth, .quoted quote⟩ (position + quote.utf8Size) position rest).map
        (StatementCut.prepend [quote]) := by
    rcases isQuote_cases hq with rfl | rfl <;> exact cut_cons (by simp [stops]) rfl rfl rest
  have h2 : cut ⟨depth, .quoted quote⟩ (position + quote.utf8Size) position rest =
      cutClosed depth (position + quote.utf8Size) position (.unclosedString position) [quote]
        (takeQuoted? quote false rest) := cut_quoted hq false rest
  rw [h1, h2, cutClosed_cons]
  cases takeQuoted? quote false rest with
  | none => rfl
  | some parts => exact congrArg (Except.map _) (cut_mark (Or.inl rfl) mark _)

theorem cut_commentUnit (rest : Text) :
    cut ⟨depth, .code⟩ position mark ('/' :: '*' :: rest) =
      match breakAt? ['*', '/'] rest with
      | some (inside, after) =>
        (cut ⟨depth, .code⟩ (position + byteLength ('/' :: '*' :: (inside ++ ['*', '/']))) mark
          after).map (StatementCut.prepend ('/' :: '*' :: (inside ++ ['*', '/'])))
      | none => .error (.unclosedComment position) := by
  have h1 : cut ⟨depth, .code⟩ position mark ('/' :: '*' :: rest) =
      (cut ⟨depth, .slash⟩ (position + '/'.utf8Size) position ('*' :: rest)).map
        (StatementCut.prepend ['/']) := cut_cons (by simp [stops]) rfl rfl _
  have h2 : cut ⟨depth, .slash⟩ (position + '/'.utf8Size) position ('*' :: rest) =
      (cut ⟨depth, .comment⟩ (position + '/'.utf8Size + '*'.utf8Size) position rest).map
        (StatementCut.prepend ['*']) := cut_cons (by simp [stops]) rfl rfl _
  rw [h1, h2, cut_comment, cutClosed_cons, cutClosed_cons]
  cases breakAt? ['*', '/'] rest with
  | none => rfl
  | some parts => exact congrArg (Except.map _) (cut_mark (Or.inl rfl) mark _)

theorem cut_plain {c : Char} (hc : ¬ (depth = 0 ∧ (c = ';' ∨ c = '{' ∨ c = '}'))) (hb : c ≠ '\\')
    (hq : ¬ isQuote c) {rest : Text} (hm : ¬ (c = '/' ∧ rest.head? = some '*')) :
    cut ⟨depth, .code⟩ position mark (c :: rest) =
      (cut ⟨depthBehind depth c, .code⟩ (position + c.utf8Size) mark rest).map
        (StatementCut.prepend [c]) := by
  have hs : (Reading.mk depth .code).stops c = false := by
    rwa [← Bool.not_eq_true, stops_code_iff]
  by_cases hd : c = '/'
  · subst hd
    have h1 : cut ⟨depth, .code⟩ position mark ('/' :: rest) =
        (cut ⟨depth, .slash⟩ (position + '/'.utf8Size) position rest).map
          (StatementCut.prepend ['/']) := cut_cons hs rfl rfl rest
    rw [h1, cut_slash fun h => hm ⟨rfl, h⟩]
    exact congrArg (Except.map _) (cut_mark (Or.inl rfl) mark _)
  · have hn : (Reading.mk depth .code).step c = ⟨depthBehind depth c, .code⟩ := by
      have hq' : ¬ (c = '"' ∨ c = '\'') := by simpa [isQuote] using hq
      rw [step, stepCode, if_neg hb, if_neg hq', if_neg hd, depthBehind]
      split
      · rfl
      · split <;> rfl
    refine cut_cons hs hn ?_ rest
    rw [markBehind, hn]

theorem cut_unit {c : Char} (hc : ¬ (depth = 0 ∧ (c = ';' ∨ c = '{' ∨ c = '}'))) (rest : Text) :
    cut ⟨depth, .code⟩ position mark (c :: rest) =
      match takeUnit c rest with
      | .ok (unit, after) =>
        (cut ⟨depthBehind depth c, .code⟩ (position + unit.byteLength) mark after).map
          (StatementCut.prepend unit)
      | .error fault => .error (fault.shift position) := by
  by_cases hb : c = '\\'
  · subst hb
    exact cut_escape rest
  by_cases hq : isQuote c
  · have hd : depthBehind depth c = depth := by rcases isQuote_cases hq with rfl | rfl <;> rfl
    rw [takeUnit, if_neg hb, if_pos hq, cut_string hq, hd]
    cases takeQuoted? c false rest <;> rfl
  by_cases hm : c = '/' ∧ rest.head? = some '*'
  · obtain ⟨rfl, hs⟩ := hm
    obtain ⟨tail, rfl⟩ := List.head?_eq_some_iff.mp hs
    rw [takeUnit, if_neg hb, if_neg hq, if_pos ⟨rfl, rfl⟩, cut_commentUnit, List.tail_cons]
    cases breakAt? ['*', '/'] tail <;> rfl
  · rw [takeUnit, if_neg hb, if_neg hq, if_neg hm]
    exact cut_plain hc hb hq hm

end

theorem cut_eq_cutUnits (depth position mark : Nat) (s : Text) :
    cut ⟨depth, .code⟩ position mark s =
      match cutUnits depth s with
      | .ok found => .ok found
      | .error fault => .error (fault.shift position) := by
  induction depth, s using cutUnits.induct generalizing position with
  | case1 depth => rw [cutUnits_nil]; rfl
  | case2 depth c rest hc =>
    rw [cutUnits_of_stop hc, cut, if_pos (stops_code_iff.mpr hc)]
  | case3 depth c rest hc fault hu =>
    rw [cutUnits_of_error hc hu, cut_unit hc rest, hu]
  | case4 depth c rest hc unit after hu _ ih =>
    rw [cutUnits_of_unit hc hu, cut_unit hc rest, hu]
    simp only [ih]
    cases cutUnits (depthBehind depth c) after with
    | ok found => rfl
    | error fault => simp [cutBehind, Except.map, Fault.shift_shift]

end Reading

theorem cutStatement_eq_cutUnits (s : Text) : cutStatement s = cutUnits 0 s := by
  rw [Reading.cutStatement_eq_cut, Reading.cut_eq_cutUnits]
  cases cutUnits 0 s with
  | ok found => rfl
  | error fault => cases fault <;> simp [Fault.shift]

end StyleValues
