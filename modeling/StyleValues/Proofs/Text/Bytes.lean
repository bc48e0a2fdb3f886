import Mathlib.Data.List.Basic
import StyleValues.Text.Basic

/-!
# Bytes and slices

A text as its bytes in UTF-8, and the parts of it that begin and end on
boundaries between characters. A byte below 128 is a character of its own
wherever it stands, and the bytes inside a longer character are all above, so
a search for such a byte may go on from inside a character: it comes out at the
end of it (`RestAt.skip`).
-/

set_option autoImplicit false

namespace StyleValues.Text

def bytes (s : Text) : List UInt8 := s.flatMap String.utf8EncodeChar

theorem bytes_append (s t : Text) : bytes (s ++ t) = bytes s ++ bytes t := List.flatMap_append

theorem length_bytes (s : Text) : (bytes s).length = byteLength s := by
  induction s with
  | nil => rfl
  | cons c s ih => simpa [bytes, byteLength] using ih

/-! ### Single bytes -/

theorem utf8Size_eq_one {c : Char} (h : c.toNat < 128) : c.utf8Size = 1 := by
  rw [Char.utf8Size_eq_one_iff, UInt32.le_iff_toNat_le]
  exact Nat.le_of_lt_succ h

theorem utf8EncodeChar_of_lt {c : Char} (h : c.toNat < 128) :
    String.utf8EncodeChar c = [c.toUInt8] :=
  String.utf8EncodeChar_eq_singleton (utf8Size_eq_one h)

theorem toNat_toUInt8 {c : Char} (h : c.toNat < 128) : c.toUInt8.toNat = c.toNat := by
  rw [Char.toUInt8, UInt32.toNat_toUInt8]
  exact Nat.mod_eq_of_lt (Nat.lt_trans h (by decide))

theorem le_toNat_or {a b : UInt8} (h : 128 ≤ b.toNat) : 128 ≤ (a ||| b).toNat := by
  rw [UInt8.toNat_or]
  exact Nat.le_trans h Nat.right_le_or

theorem le_toNat_of_mem_utf8EncodeChar {c : Char} (h : c.utf8Size ≠ 1) :
    ∀ b ∈ String.utf8EncodeChar c, 128 ≤ b.toNat := by
  intro b hb
  have hp := c.utf8Size_pos
  have hl := c.utf8Size_le_four
  have hsize : c.utf8Size = 2 ∨ c.utf8Size = 3 ∨ c.utf8Size = 4 := by omega
  rcases hsize with hc | hc | hc
  · rw [String.utf8EncodeChar_eq_cons_cons hc] at hb
    simp only [List.mem_cons, List.not_mem_nil, or_false] at hb
    rcases hb with rfl | rfl <;> exact le_toNat_or (by decide)
  · rw [String.utf8EncodeChar_eq_cons_cons_cons hc] at hb
    simp only [List.mem_cons, List.not_mem_nil, or_false] at hb
    rcases hb with rfl | rfl | rfl <;> exact le_toNat_or (by decide)
  · rw [String.utf8EncodeChar_eq_cons_cons_cons_cons hc] at hb
    simp only [List.mem_cons, List.not_mem_nil, or_false] at hb
    rcases hb with rfl | rfl | rfl | rfl <;> exact le_toNat_or (by decide)

theorem ne_toUInt8_of_le {b : UInt8} (h : 128 ≤ b.toNat) {d : Char} (hd : d.toNat < 128) :
    b ≠ d.toUInt8 := by
  rintro rfl
  rw [toNat_toUInt8 hd] at h
  omega

theorem lt_of_utf8Size_eq_one {c : Char} (h : c.utf8Size = 1) : c.toNat < 128 := by
  rw [Char.utf8Size_eq_one_iff, UInt32.le_iff_toNat_le] at h
  exact Nat.lt_succ_of_le h

theorem toUInt8_inj {c d : Char} (hc : c.toNat < 128) (hd : d.toNat < 128)
    (h : c.toUInt8 = d.toUInt8) : c = d := by
  have hn := congrArg UInt8.toNat h
  rw [toNat_toUInt8 hc, toNat_toUInt8 hd] at hn
  exact Char.toNat_inj.mp hn

theorem head?_bytes_eq_iff {s : Text} {d : Char} (hd : d.toNat < 128) :
    (bytes s)[0]? = some d.toUInt8 ↔ s.head? = some d := by
  cases s with
  | nil => simp [bytes]
  | cons c s =>
    rw [bytes, List.flatMap_cons, List.head?_cons, Option.some_inj]
    by_cases hc : c.utf8Size = 1
    · have hlt := lt_of_utf8Size_eq_one hc
      rw [utf8EncodeChar_of_lt hlt]
      constructor
      · intro h
        exact toUInt8_inj hlt hd (Option.some.inj h)
      · rintro rfl
        rfl
    · have hne : c ≠ d := by
        rintro rfl
        exact hc (utf8Size_eq_one hd)
      have hpos : 0 < (String.utf8EncodeChar c).length := by
        rw [String.length_utf8EncodeChar]
        exact c.utf8Size_pos
      rw [List.getElem?_append_left hpos, List.getElem?_eq_getElem hpos, Option.some_inj]
      refine iff_of_false ?_ hne
      exact ne_toUInt8_of_le (le_toNat_of_mem_utf8EncodeChar hc _ (List.getElem_mem hpos)) hd

/-! ### Boundaries -/

theorem byteLength_eq_zero {s : Text} (h : s.byteLength = 0) : s = [] :=
  List.length_eq_zero_iff.mp (Nat.le_zero.mp (h ▸ length_le_byteLength s))

theorem eq_of_byteLength_eq {s s' t t' : Text} (h : s ++ t = s' ++ t')
    (hl : s.byteLength = s'.byteLength) : s = s' := by
  induction s generalizing s' with
  | nil => exact (byteLength_eq_zero hl.symm).symm
  | cons c s ih =>
    cases s' with
    | nil => exact byteLength_eq_zero hl
    | cons d s' =>
      obtain ⟨rfl, ht⟩ := List.cons.inj h
      rw [ih ht (Nat.add_left_cancel hl)]

/-- What follows byte `position` of a text, which is a boundary between two of its characters. -/
def RestAt (source : Text) (position : Nat) (rest : Text) : Prop :=
  ∃ front : Text, front ++ rest = source ∧ front.byteLength = position

namespace RestAt

variable {source part rest : Text} {position : Nat} {c : Char}

theorem start (source : Text) : RestAt source 0 source := ⟨[], rfl, rfl⟩

theorem forward (h : RestAt source position (part ++ rest)) :
    RestAt source (position + part.byteLength) rest := by
  obtain ⟨front, rfl, rfl⟩ := h
  exact ⟨front ++ part, List.append_assoc _ _ _, byteLength_append _ _⟩

theorem step (h : RestAt source position (c :: rest)) :
    RestAt source (position + c.utf8Size) rest := by
  have hc : RestAt source position ([c] ++ rest) := h
  exact hc.forward

theorem length (h : RestAt source position rest) :
    position + rest.byteLength = source.byteLength := by
  obtain ⟨front, rfl, rfl⟩ := h
  exact (byteLength_append front rest).symm

theorem position_eq {other : Nat} (h : RestAt source position rest)
    (h' : RestAt source other rest) : position = other :=
  Nat.add_right_cancel (h.length.trans h'.length.symm)

theorem getElem?_bytes (h : RestAt source position rest) (k : Nat) :
    source.bytes[position + k]? = rest.bytes[k]? := by
  obtain ⟨front, rfl, rfl⟩ := h
  rw [bytes_append, ← length_bytes, List.getElem?_append_right (Nat.le_add_right _ _),
    Nat.add_sub_cancel_left]

theorem byte_eq_iff (h : RestAt source position rest) {d : Char} (hd : d.toNat < 128) :
    source.bytes[position]? = some d.toUInt8 ↔ rest.head? = some d := by
  rw [← head?_bytes_eq_iff hd, ← h.getElem?_bytes 0, Nat.add_zero]

theorem exists_byte (h : RestAt source position (c :: rest)) :
    ∃ b, source.bytes[position]? = some b ∧ ∀ d : Char, d.toNat < 128 → (b = d.toUInt8 ↔ c = d) := by
  have hlt : position < source.bytes.length := by
    have := c.utf8Size_pos
    rw [length_bytes, ← h.length, byteLength]
    omega
  refine ⟨_, List.getElem?_eq_getElem hlt, fun d hd => ?_⟩
  rw [← Option.some_inj, ← List.getElem?_eq_getElem hlt, h.byte_eq_iff hd, List.head?_cons,
    Option.some_inj]

theorem no_byte (h : RestAt source position []) (k : Nat) :
    source.bytes[position + k]? = none := by
  rw [h.getElem?_bytes]
  rfl

theorem byte_inside (h : RestAt source position (c :: rest)) {k : Nat} (h0 : 0 < k)
    (hk : k < c.utf8Size) : ∃ b, source.bytes[position + k]? = some b ∧ 128 ≤ b.toNat := by
  have hlt : k < (String.utf8EncodeChar c).length := by rwa [String.length_utf8EncodeChar]
  refine ⟨_, ?_, le_toNat_of_mem_utf8EncodeChar (by omega) _ (List.getElem_mem hlt)⟩
  rw [h.getElem?_bytes, bytes, List.flatMap_cons, List.getElem?_append_left hlt,
    List.getElem?_eq_getElem hlt]

/-- A search that passes over the bytes from 128 on comes from the inside of a character to the
end of it. -/
theorem skip (h : RestAt source position (c :: rest)) {β : Type} {search : Nat → β}
    (hs : ∀ i b, source.bytes[i]? = some b → 128 ≤ b.toNat → search i = search (i + 1)) :
    search (position + 1) = search (position + c.utf8Size) := by
  have hgo : ∀ k, 0 < k → k ≤ c.utf8Size → search (position + 1) = search (position + k) := by
    intro k
    induction k with
    | zero => exact fun h0 => absurd h0 (Nat.lt_irrefl 0)
    | succ k ih =>
      intro _ hk
      rcases Nat.eq_zero_or_pos k with rfl | h0
      · rfl
      · obtain ⟨b, hb, hle⟩ := h.byte_inside h0 hk
        rw [ih h0 (Nat.le_of_succ_le hk), hs _ b hb hle, Nat.add_assoc]
  exact hgo _ c.utf8Size_pos (Nat.le_refl _)

end RestAt

/-- The parts of a text in front of and behind byte `n`, if that is a boundary. -/
def splitAtByte? : Nat → Text → Option (Text × Text)
  | 0, s => some ([], s)
  | _ + 1, [] => none
  | n + 1, c :: s =>
    if c.utf8Size ≤ n + 1 then
      (splitAtByte? (n + 1 - c.utf8Size) s).map fun parts => (c :: parts.1, parts.2)
    else none

theorem splitAtByte?_eq_some_iff {n : Nat} {s front rest : Text} :
    splitAtByte? n s = some (front, rest) ↔ front ++ rest = s ∧ front.byteLength = n := by
  induction n, s using splitAtByte?.induct generalizing front with
  | case1 s =>
    rw [splitAtByte?, Option.some_inj, Prod.mk.injEq]
    constructor
    · rintro ⟨rfl, rfl⟩
      exact ⟨rfl, rfl⟩
    · rintro ⟨rfl, h⟩
      rw [byteLength_eq_zero h]
      exact ⟨rfl, rfl⟩
  | case2 n =>
    rw [splitAtByte?, List.append_eq_nil_iff]
    refine iff_of_false nofun ?_
    rintro ⟨⟨rfl, -⟩, h⟩
    exact nomatch h
  | case3 n c s hc ih =>
    rw [splitAtByte?, if_pos hc, Option.map_eq_some_iff]
    constructor
    · rintro ⟨⟨left, right⟩, hp, he⟩
      cases he
      obtain ⟨rfl, hl⟩ := ih.mp hp
      exact ⟨rfl, by rw [byteLength, hl]; omega⟩
    · rintro ⟨ha, hl⟩
      cases front with
      | nil => exact nomatch hl
      | cons d left =>
        rw [List.cons_append, List.cons.injEq] at ha
        obtain ⟨rfl, ha⟩ := ha
        rw [byteLength] at hl
        exact ⟨(left, rest), ih.mpr ⟨ha, by omega⟩, rfl⟩
  | case4 n c s hc =>
    rw [splitAtByte?, if_neg hc]
    refine iff_of_false nofun ?_
    rintro ⟨ha, hl⟩
    cases front with
    | nil => exact nomatch hl
    | cons d left =>
      rw [List.cons_append, List.cons.injEq] at ha
      rw [byteLength, ha.1] at hl
      omega

def isBoundary (s : Text) (n : Nat) : Bool := (splitAtByte? n s).isSome

theorem isBoundary_iff {s : Text} {n : Nat} : isBoundary s n ↔ ∃ rest, RestAt s n rest := by
  rw [isBoundary, Option.isSome_iff_exists]
  constructor
  · rintro ⟨⟨front, rest⟩, h⟩
    exact ⟨rest, front, splitAtByte?_eq_some_iff.mp h⟩
  · rintro ⟨rest, front, h⟩
    exact ⟨(front, rest), splitAtByte?_eq_some_iff.mpr h⟩

theorem le_of_isBoundary {s : Text} {n : Nat} (h : isBoundary s n) : n ≤ s.byteLength := by
  obtain ⟨rest, hr⟩ := isBoundary_iff.mp h
  rw [← hr.length]
  exact Nat.le_add_right _ _

def slice? (s : Text) (start stop : Nat) : Option Text :=
  match splitAtByte? stop s with
  | none => none
  | some (front, _) => (splitAtByte? start front).map Prod.snd

theorem slice?_eq_some_iff {s part : Text} {start stop : Nat} :
    slice? s start stop = some part ↔
      ∃ rest, RestAt s start (part ++ rest) ∧ start + part.byteLength = stop := by
  rw [slice?]
  constructor
  · intro h
    split at h
    · cases h
    · next front rest hf =>
      obtain ⟨⟨before, _⟩, hb, rfl⟩ := Option.map_eq_some_iff.mp h
      obtain ⟨rfl, rfl⟩ := splitAtByte?_eq_some_iff.mp hf
      obtain ⟨rfl, rfl⟩ := splitAtByte?_eq_some_iff.mp hb
      exact ⟨rest, ⟨before, (List.append_assoc _ _ _).symm, rfl⟩, (byteLength_append _ _).symm⟩
  · rintro ⟨rest, ⟨before, rfl, rfl⟩, rfl⟩
    have hf : splitAtByte? (before.byteLength + part.byteLength) (before ++ (part ++ rest)) =
        some (before ++ part, rest) :=
      splitAtByte?_eq_some_iff.mpr ⟨List.append_assoc _ _ _, byteLength_append _ _⟩
    rw [hf]
    exact Option.map_eq_some_iff.mpr ⟨(before, part), splitAtByte?_eq_some_iff.mpr ⟨rfl, rfl⟩, rfl⟩

theorem isSome_slice?_iff {s : Text} {start stop : Nat} :
    (slice? s start stop).isSome ↔ start ≤ stop ∧ isBoundary s start ∧ isBoundary s stop := by
  rw [Option.isSome_iff_exists]
  constructor
  · rintro ⟨part, h⟩
    obtain ⟨rest, hr, rfl⟩ := slice?_eq_some_iff.mp h
    exact ⟨Nat.le_add_right _ _, isBoundary_iff.mpr ⟨_, hr⟩, isBoundary_iff.mpr ⟨_, hr.forward⟩⟩
  · rintro ⟨hle, hstart, hstop⟩
    obtain ⟨tail, front, ha, rfl⟩ := isBoundary_iff.mp hstart
    obtain ⟨rest, upto, hb, rfl⟩ := isBoundary_iff.mp hstop
    obtain ⟨part, rfl⟩ : front <+: upto := by
      by_contra hn
      have hp : upto <+: front := by
        rcases List.prefix_or_prefix_of_prefix ⟨rest, hb⟩ ⟨tail, ha⟩ with hp | hp
        · exact hp
        · exact absurd hp hn
      obtain ⟨extra, rfl⟩ := hp
      rw [byteLength_append] at hle
      rw [byteLength_eq_zero (s := extra) (by omega), List.append_nil] at hn
      exact hn (List.prefix_refl _)
    refine ⟨part, slice?_eq_some_iff.mpr ⟨rest, ⟨front, ?_, rfl⟩, (byteLength_append _ _).symm⟩⟩
    rw [← List.append_assoc, hb]

end StyleValues.Text
