import StyleValues.Proofs.Sheet.Units
import StyleValues.Proofs.Text.Bytes

/-!
# Scanning bytes

The searches behind a style sheet go over bytes: they count an index on, by two
behind a backslash, and take slices of the text at the indices they come to.
Done with every slice checked, such a search never asks for a slice that is off
the characters, and it finds what the search over characters finds. The index
may stand inside a character or behind the end of the text only right behind a
backslash, from where the search goes on to the next boundary.
-/

set_option autoImplicit false

namespace StyleValues

open Text

inductive Outcome (α : Type) where
  | ok (value : α)
  | fault (fault : Fault)
  /-- A slice was to be taken, or the cursor to be put, off the boundaries between characters. -/
  | astray
  /-- A turn of a loop has not got on, or has left the text. -/
  | stuck
deriving DecidableEq, Repr

namespace Outcome

variable {α β : Type}

def bind (m : Outcome α) (next : α → Outcome β) : Outcome β :=
  match m with
  | ok value => next value
  | fault f => fault f
  | astray => astray
  | stuck => stuck

instance : Monad Outcome where
  pure := ok
  bind := bind

@[simp] theorem ok_bind (value : α) (next : α → Outcome β) : ok value >>= next = next value := rfl

@[simp] theorem fault_bind (f : Fault) (next : α → Outcome β) : fault f >>= next = fault f := rfl

@[simp] theorem pure_eq (value : α) : (pure value : Outcome α) = ok value := rfl

def ofExcept : Except Fault α → Outcome α
  | .ok value => ok value
  | .error f => fault f

end Outcome

/-! ### Checked slices -/

def slice (s : Text) (start stop : Nat) : Outcome Text :=
  match slice? s start stop with
  | some part => .ok part
  | none => .astray

def sliceFrom (s : Text) (start : Nat) : Outcome Text := slice s start s.byteLength

theorem slice_eq_astray_iff {s : Text} {start stop : Nat} :
    slice s start stop = .astray ↔ ¬ (start ≤ stop ∧ isBoundary s start ∧ isBoundary s stop) := by
  rw [← isSome_slice?_iff, slice]
  cases slice? s start stop <;> simp

example : slice ['a', 'é', 'b'] 0 2 = .astray := by decide

theorem slice_eq {s part rest : Text} {start : Nat} (h : RestAt s start (part ++ rest)) :
    slice s start (start + part.byteLength) = .ok part := by
  rw [slice, slice?_eq_some_iff.mpr ⟨rest, h, rfl⟩]

theorem sliceFrom_eq {s rest : Text} {start : Nat} (h : RestAt s start rest) :
    sliceFrom s start = .ok rest := by
  rw [sliceFrom, ← h.length]
  have hend : RestAt s start (rest ++ []) := by rwa [List.append_nil]
  exact slice_eq hend

/-! ### Quoted strings -/

/-- The index behind the closing quote of a string that began at `start`, looked for from `i` on. -/
def stringEndAt (source : Text) (quote : UInt8) (start i : Nat) : Outcome Nat :=
  match h : source.bytes[i]? with
  | none => .fault (.unclosedString start)
  | some b =>
    have := (List.getElem?_eq_some_iff.mp h).1
    if b = '\\'.toUInt8 then stringEndAt source quote start (i + 2)
    else if b = quote then .ok (i + 1)
    else stringEndAt source quote start (i + 1)
termination_by source.bytes.length - i

section
variable {source rest : Text} {start i : Nat} {b : UInt8} {quote : UInt8}

theorem stringEndAt_of_none (h : source.bytes[i]? = none) :
    stringEndAt source quote start i = .fault (.unclosedString start) := by
  rw [stringEndAt]
  split
  · rfl
  · next h' => rw [h] at h'; cases h'

theorem stringEndAt_of_some (h : source.bytes[i]? = some b) :
    stringEndAt source quote start i =
      if b = '\\'.toUInt8 then stringEndAt source quote start (i + 2)
      else if b = quote then .ok (i + 1)
      else stringEndAt source quote start (i + 1) := by
  rw [stringEndAt]
  split
  · next h' => rw [h] at h'; cases h'
  · next h' => rw [h] at h'; cases h'; rfl

end

theorem toNat_lt_of_isQuote {quote : Char} (h : isQuote quote) : quote.toNat < 128 := by
  rcases isQuote_cases h with rfl | rfl <;> decide

def behindString (start i : Nat) : Option (Text × Text) → Outcome Nat
  | some (value, _) => .ok (i + (value.byteLength + 1))
  | none => .fault (.unclosedString start)

theorem behindString_cons (start i : Nat) (c : Char) (found : Option (Text × Text)) :
    behindString start (i + c.utf8Size) found =
      behindString start i (found.map fun parts => (c :: parts.1, parts.2)) := by
  cases found with
  | none => rfl
  | some parts => simp only [Option.map_some, behindString, byteLength, Nat.add_assoc]

/-- The end of a string is where the search over characters finds it. Behind a backslash the index
is one byte further on than the text that is left. -/
theorem stringEndAt_eq {source rest : Text} {start i : Nat} {quote : Char} (hq : isQuote quote)
    (escaped : Bool) (h : RestAt source i rest) :
    stringEndAt source quote.toUInt8 start (i + escaped.toNat) =
      behindString start i (takeQuoted? quote escaped rest) := by
  have hlt := toNat_lt_of_isQuote hq
  have hpass : ∀ j b, source.bytes[j]? = some b → 128 ≤ b.toNat →
      stringEndAt source quote.toUInt8 start j = stringEndAt source quote.toUInt8 start (j + 1) := by
    intro j b hb hle
    rw [stringEndAt_of_some hb, if_neg (ne_toUInt8_of_le hle (by decide)),
      if_neg (ne_toUInt8_of_le hle hlt)]
  induction rest generalizing escaped i with
  | nil => cases escaped <;> exact stringEndAt_of_none (h.no_byte _)
  | cons c rest ih =>
    cases escaped with
    | true =>
      rw [takeQuoted?, ← behindString_cons, ← ih false h.step]
      exact h.skip hpass
    | false =>
      obtain ⟨b, hb, hc⟩ := h.exists_byte
      rw [takeQuoted?, Bool.toNat_false, Nat.add_zero, stringEndAt_of_some hb]
      by_cases hs : c = '\\'
      · have hne : c ≠ quote := by
          rintro rfl
          rcases isQuote_cases hq with rfl | rfl <;> cases hs
        rw [if_pos ((hc _ (by decide)).mpr hs), if_neg hne, ← behindString_cons, ← ih _ h.step, hs]
        rfl
      · rw [if_neg fun he => hs ((hc _ (by decide)).mp he)]
        by_cases hcq : c = quote
        · rw [if_pos ((hc _ hlt).mpr hcq), if_pos hcq]
          rfl
        · rw [if_neg fun he => hcq ((hc _ hlt).mp he), if_neg hcq, ← behindString_cons,
            ← ih _ h.step, beq_eq_false_iff_ne.mpr hs]
          exact h.skip hpass

/-! ### The end of a statement -/

def offsetOf? (pattern s : Text) : Option Nat := (breakAt? pattern s).map fun parts => byteLength parts.1

/-- The index at which a statement ends, and how, looked for from `i` on. -/
def statementEndAt (source : Text) (depth i : Nat) : Outcome (Nat × Terminator) :=
  match h : source.bytes[i]? with
  | none => .ok (source.byteLength, .endOfText)
  | some b =>
    have := (List.getElem?_eq_some_iff.mp h).1
    if b = '\\'.toUInt8 then statementEndAt source depth (i + 2)
    else if b = '"'.toUInt8 ∨ b = '\''.toUInt8 then do
      let next ← stringEndAt source b i (i + 1)
      if i < next then statementEndAt source depth next else .stuck
    else if b = '/'.toUInt8 ∧ source.bytes[i + 1]? = some '*'.toUInt8 then do
      let inside ← sliceFrom source (i + 2)
      match offsetOf? ['*', '/'] inside with
      | some offset => statementEndAt source depth (i + (offset + 4))
      | none => .fault (.unclosedComment i)
    else if b = '('.toUInt8 then statementEndAt source (depth + 1) (i + 1)
    else if b = ')'.toUInt8 then statementEndAt source (depth - 1) (i + 1)
    else if depth = 0 ∧ b = ';'.toUInt8 then .ok (i, .semicolon)
    else if depth = 0 ∧ b = '{'.toUInt8 then .ok (i, .openBrace)
    else if depth = 0 ∧ b = '}'.toUInt8 then .ok (i, .closeBrace)
    else statementEndAt source depth (i + 1)
termination_by source.bytes.length - i

section
variable {source rest : Text} {depth i : Nat} {b : UInt8} {c : Char}

theorem statementEndAt_of_none (h : source.bytes[i]? = none) :
    statementEndAt source depth i = .ok (source.byteLength, .endOfText) := by
  rw [statementEndAt]
  split
  · rfl
  · next h' => rw [h] at h'; cases h'

theorem statementEndAt_of_some (h : source.bytes[i]? = some b) :
    statementEndAt source depth i =
      if b = '\\'.toUInt8 then statementEndAt source depth (i + 2)
      else if b = '"'.toUInt8 ∨ b = '\''.toUInt8 then
        stringEndAt source b i (i + 1) >>= fun next =>
          if i < next then statementEndAt source depth next else .stuck
      else if b = '/'.toUInt8 ∧ source.bytes[i + 1]? = some '*'.toUInt8 then
        sliceFrom source (i + 2) >>= fun inside =>
          match offsetOf? ['*', '/'] inside with
          | some offset => statementEndAt source depth (i + (offset + 4))
          | none => .fault (.unclosedComment i)
      else if b = '('.toUInt8 then statementEndAt source (depth + 1) (i + 1)
      else if b = ')'.toUInt8 then statementEndAt source (depth - 1) (i + 1)
      else if depth = 0 ∧ b = ';'.toUInt8 then .ok (i, .semicolon)
      else if depth = 0 ∧ b = '{'.toUInt8 then .ok (i, .openBrace)
      else if depth = 0 ∧ b = '}'.toUInt8 then .ok (i, .closeBrace)
      else statementEndAt source depth (i + 1) := by
  rw [statementEndAt]
  split
  · next h' => rw [h] at h'; cases h'
  · next h' => rw [h] at h'; cases h'; rfl

theorem statementEndAt_pass (h : source.bytes[i]? = some b) (hle : 128 ≤ b.toNat) :
    statementEndAt source depth i = statementEndAt source depth (i + 1) := by
  have hne : ∀ d : Char, d.toNat < 128 → b ≠ d.toUInt8 := fun d => ne_toUInt8_of_le hle
  rw [statementEndAt_of_some h, if_neg (hne _ (by decide)),
    if_neg (not_or.mpr ⟨hne _ (by decide), hne _ (by decide)⟩),
    if_neg fun hb => hne _ (by decide) hb.1, if_neg (hne _ (by decide)), if_neg (hne _ (by decide)),
    if_neg fun hb => hne _ (by decide) hb.2, if_neg fun hb => hne _ (by decide) hb.2,
    if_neg fun hb => hne _ (by decide) hb.2]

theorem statementEndAt_skip (h : RestAt source i (c :: rest)) :
    statementEndAt source depth (i + 1) = statementEndAt source depth (i + c.utf8Size) :=
  h.skip fun _ _ => statementEndAt_pass

theorem statementEndAt_nil (h : RestAt source i []) (k : Nat) :
    statementEndAt source depth (i + k) = .ok (source.byteLength, .endOfText) :=
  statementEndAt_of_none (h.no_byte k)

theorem statementEndAt_cons (h : RestAt source i (c :: rest)) :
    statementEndAt source depth i =
      if c = '\\' then statementEndAt source depth (i + 2)
      else if c = '"' ∨ c = '\'' then
        stringEndAt source c.toUInt8 i (i + 1) >>= fun next =>
          if i < next then statementEndAt source depth next else .stuck
      else if c = '/' ∧ rest.head? = some '*' then
        sliceFrom source (i + 2) >>= fun inside =>
          match offsetOf? ['*', '/'] inside with
          | some offset => statementEndAt source depth (i + (offset + 4))
          | none => .fault (.unclosedComment i)
      else if c = '(' then statementEndAt source (depth + 1) (i + 1)
      else if c = ')' then statementEndAt source (depth - 1) (i + 1)
      else if depth = 0 ∧ c = ';' then .ok (i, .semicolon)
      else if depth = 0 ∧ c = '{' then .ok (i, .openBrace)
      else if depth = 0 ∧ c = '}' then .ok (i, .closeBrace)
      else statementEndAt source depth (i + 1) := by
  obtain ⟨b, hb, hc⟩ := h.exists_byte
  have hquote : b = '"'.toUInt8 ∨ b = '\''.toUInt8 ↔ c = '"' ∨ c = '\'' :=
    or_congr (hc _ (by decide)) (hc _ (by decide))
  have hslash : b = '/'.toUInt8 ∧ source.bytes[i + 1]? = some '*'.toUInt8 ↔
      c = '/' ∧ rest.head? = some '*' := by
    rw [hc _ (by decide)]
    refine and_congr_right ?_
    rintro rfl
    have hr : RestAt source (i + 1) rest := h.step
    exact hr.byte_eq_iff (by decide)
  rw [statementEndAt_of_some hb]
  refine ite_congr (propext (hc _ (by decide))) (fun _ => rfl) fun _ => ?_
  refine ite_congr (propext hquote) (fun hx => ?_) fun _ => ?_
  · have hbc : b = c.toUInt8 := by
      rcases hx with rfl | rfl <;> exact (hc _ (by decide)).mpr rfl
    rw [hbc]
  refine ite_congr (propext hslash) (fun _ => rfl) fun _ => ?_
  simp only [hc '(' (by decide), hc ')' (by decide), hc ';' (by decide), hc '\x7b' (by decide),
    hc '\x7d' (by decide)]

theorem statementEndAt_escape (h : RestAt source i ('\\' :: rest)) :
    statementEndAt source depth i =
      statementEndAt source depth (i + byteLength ('\\' :: rest.take 1)) := by
  have hr : RestAt source (i + 1) rest := h.step
  rw [statementEndAt_cons h, if_pos rfl]
  cases rest with
  | nil => exact (statementEndAt_nil hr 1).trans (statementEndAt_nil hr 0).symm
  | cons d rest =>
    have hn : byteLength ('\\' :: (d :: rest).take 1) = 1 + d.utf8Size := rfl
    rw [hn, ← Nat.add_assoc]
    exact statementEndAt_skip hr

theorem statementEndAt_string (hq : isQuote c) (h : RestAt source i (c :: rest)) :
    statementEndAt source depth i =
      match takeQuoted? c false rest with
      | some (value, _) => statementEndAt source depth (i + byteLength (c :: (value ++ [c])))
      | none => .fault (.unclosedString i) := by
  have hsize := utf8Size_eq_one (toNat_lt_of_isQuote hq)
  have hs : c ≠ '\\' := by
    rintro rfl
    cases hq
  have hr : RestAt source (i + 1) rest := by
    rw [← hsize]
    exact h.step
  have he : stringEndAt source c.toUInt8 i (i + 1) =
      behindString i (i + 1) (takeQuoted? c false rest) := stringEndAt_eq hq false hr
  rw [statementEndAt_cons h, if_neg hs, if_pos (isQuote_cases hq), he]
  cases takeQuoted? c false rest with
  | none => rfl
  | some parts =>
    have hn : i + 1 + (byteLength parts.1 + 1) = i + byteLength (c :: (parts.1 ++ [c])) := by
      simp only [byteLength, byteLength_append, hsize]
      omega
    rw [behindString, Outcome.ok_bind, if_pos (by omega), hn]

theorem statementEndAt_comment (h : RestAt source i ('/' :: '*' :: rest)) :
    statementEndAt source depth i =
      match breakAt? ['*', '/'] rest with
      | some (inside, _) =>
        statementEndAt source depth (i + byteLength ('/' :: '*' :: (inside ++ ['*', '/'])))
      | none => .fault (.unclosedComment i) := by
  have hstar : RestAt source (i + 1) ('*' :: rest) := h.step
  have hr : RestAt source (i + 2) rest := hstar.step
  have hq : ¬ ('/' = '"' ∨ '/' = '\'') := by decide
  rw [statementEndAt_cons h, if_neg (by decide), if_neg hq, if_pos ⟨rfl, rfl⟩, sliceFrom_eq hr,
    Outcome.ok_bind, offsetOf?]
  cases breakAt? ['*', '/'] rest with
  | none => rfl
  | some parts =>
    have hn : byteLength ('/' :: '*' :: (parts.1 ++ ['*', '/'])) = byteLength parts.1 + 4 := by
      rw [byteLength, byteLength, byteLength_append]
      change 1 + (1 + (byteLength parts.1 + 2)) = _
      omega
    simp only [Option.map_some, hn]

theorem statementEndAt_plain (hd : ¬ (depth = 0 ∧ (c = ';' ∨ c = '{' ∨ c = '}'))) (hs : c ≠ '\\')
    (hq : ¬ isQuote c) (hm : ¬ (c = '/' ∧ rest.head? = some '*'))
    (h : RestAt source i (c :: rest)) :
    statementEndAt source depth i =
      statementEndAt source (depthBehind depth c) (i + c.utf8Size) := by
  have hqc : ¬ (c = '"' ∨ c = '\'') := by simpa [isQuote] using hq
  rw [statementEndAt_cons h, if_neg hs, if_neg hqc, if_neg hm, depthBehind, ← statementEndAt_skip h]
  by_cases hopen : c = '('
  · rw [if_pos hopen, if_pos hopen]
  rw [if_neg hopen, if_neg hopen]
  by_cases hclose : c = ')'
  · rw [if_pos hclose, if_pos hclose]
  rw [if_neg hclose, if_neg hclose, if_neg fun hx => hd ⟨hx.1, Or.inl hx.2⟩,
    if_neg fun hx => hd ⟨hx.1, Or.inr (Or.inl hx.2)⟩,
    if_neg fun hx => hd ⟨hx.1, Or.inr (Or.inr hx.2)⟩]

theorem statementEndAt_unit (hd : ¬ (depth = 0 ∧ (c = ';' ∨ c = '{' ∨ c = '}')))
    (h : RestAt source i (c :: rest)) :
    statementEndAt source depth i =
      match takeUnit c rest with
      | .ok (unit, _) => statementEndAt source (depthBehind depth c) (i + unit.byteLength)
      | .error fault => .fault (fault.shift i) := by
  by_cases hs : c = '\\'
  · subst hs
    exact statementEndAt_escape h
  by_cases hq : isQuote c
  · have hdepth : depthBehind depth c = depth := by rcases isQuote_cases hq with rfl | rfl <;> rfl
    rw [takeUnit, if_neg hs, if_pos hq, statementEndAt_string hq h, hdepth]
    cases takeQuoted? c false rest <;> rfl
  by_cases hm : c = '/' ∧ rest.head? = some '*'
  · obtain ⟨rfl, hstar⟩ := hm
    obtain ⟨tail, rfl⟩ := List.head?_eq_some_iff.mp hstar
    rw [takeUnit, if_neg hs, if_neg hq, if_pos ⟨rfl, rfl⟩, statementEndAt_comment h, List.tail_cons]
    cases breakAt? ['*', '/'] tail <;> rfl
  · rw [takeUnit, if_neg hs, if_neg hq, if_neg hm]
    exact statementEndAt_plain hd hs hq hm h

theorem statementEndAt_stop (hd : depth = 0 ∧ (c = ';' ∨ c = '{' ∨ c = '}'))
    (h : RestAt source i (c :: rest)) : statementEndAt source depth i = .ok (i, .ofChar c) := by
  rw [statementEndAt_cons h]
  obtain ⟨rfl, rfl | rfl | rfl⟩ := hd <;> rfl

end

def statementStop (i : Nat) : Except Fault StatementCut → Outcome (Nat × Terminator)
  | .ok cut => .ok (i + cut.body.byteLength, cut.terminator)
  | .error fault => .fault (fault.shift i)

theorem statementEndAt_eq_cutUnits {source rest : Text} {depth i : Nat} (h : RestAt source i rest) :
    statementEndAt source depth i = statementStop i (cutUnits depth rest) := by
  induction depth, rest using cutUnits.induct generalizing i with
  | case1 depth =>
    rw [cutUnits_nil, statementStop, h.length]
    exact statementEndAt_nil h 0
  | case2 depth c rest hd =>
    rw [cutUnits_of_stop hd, statementEndAt_stop hd h]
    rfl
  | case3 depth c rest hd fault hu =>
    rw [cutUnits_of_error hd hu, statementEndAt_unit hd h, hu]
    rfl
  | case4 depth c rest hd unit after hu _ ih =>
    have hr : RestAt source (i + unit.byteLength) after := by
      rw [← (takeUnit_append hu).1] at h
      exact h.forward
    rw [cutUnits_of_unit hd hu, statementEndAt_unit hd h, hu]
    dsimp only
    rw [ih hr]
    cases cutUnits (depthBehind depth c) after with
    | ok cut => simp [cutBehind, statementStop, StatementCut.prepend, byteLength_append, Nat.add_assoc]
    | error fault => simp [cutBehind, statementStop, Fault.shift_shift]

theorem statementEndAt_eq {source rest : Text} {i : Nat} (h : RestAt source i rest) :
    statementEndAt source 0 i = statementStop i (cutStatement rest) := by
  rw [statementEndAt_eq_cutUnits h, cutStatement_eq_cutUnits]

end StyleValues
