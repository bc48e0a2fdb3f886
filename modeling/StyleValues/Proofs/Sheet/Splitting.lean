import StyleValues.Proofs.Sheet.Scanning
import StyleValues.Proofs.Text.Trimming
import StyleValues.Sheet.Colon

/-!
# Splitting by bytes

The text of a statement is taken apart at a colon that is looked for by bytes,
and its parts are cut free of white space by their lengths in bytes. With every
slice checked, both find what is found by characters.
-/

set_option autoImplicit false

namespace StyleValues

open Text

/-! ### The colon of a declaration -/

def colonAt? (text : Text) (depth : Nat) (quote : Option UInt8) (i : Nat) : Option Nat :=
  match h : text.bytes[i]? with
  | none => none
  | some b =>
    have := (List.getElem?_eq_some_iff.mp h).1
    match quote with
    | some q =>
      if b = '\\'.toUInt8 then colonAt? text depth (some q) (i + 2)
      else if b = q then colonAt? text depth none (i + 1)
      else colonAt? text depth (some q) (i + 1)
    | none =>
      if b = '"'.toUInt8 ∨ b = '\''.toUInt8 then colonAt? text depth (some b) (i + 1)
      else if b = '('.toUInt8 then colonAt? text (depth + 1) none (i + 1)
      else if b = ')'.toUInt8 then colonAt? text (depth - 1) none (i + 1)
      else if b = ':'.toUInt8 ∧ depth = 0 then some i
      else colonAt? text depth none (i + 1)
termination_by text.bytes.length - i

section
variable {text rest : Text} {depth i : Nat} {quote : Option UInt8} {b : UInt8} {c : Char}

theorem colonAt?_of_none (h : text.bytes[i]? = none) : colonAt? text depth quote i = none := by
  rw [colonAt?]
  split
  · rfl
  · next h' => rw [h] at h'; cases h'

theorem colonAt?_quoted {q : UInt8} (h : text.bytes[i]? = some b) :
    colonAt? text depth (some q) i =
      if b = '\\'.toUInt8 then colonAt? text depth (some q) (i + 2)
      else if b = q then colonAt? text depth none (i + 1)
      else colonAt? text depth (some q) (i + 1) := by
  rw [colonAt?]
  split
  · next h' => rw [h] at h'; cases h'
  · next h' => rw [h] at h'; cases h'; rfl

theorem colonAt?_plain (h : text.bytes[i]? = some b) :
    colonAt? text depth none i =
      if b = '"'.toUInt8 ∨ b = '\''.toUInt8 then colonAt? text depth (some b) (i + 1)
      else if b = '('.toUInt8 then colonAt? text (depth + 1) none (i + 1)
      else if b = ')'.toUInt8 then colonAt? text (depth - 1) none (i + 1)
      else if b = ':'.toUInt8 ∧ depth = 0 then some i
      else colonAt? text depth none (i + 1) := by
  rw [colonAt?]
  split
  · next h' => rw [h] at h'; cases h'
  · next h' => rw [h] at h'; cases h'; rfl

theorem colonAt?_skip_plain (h : RestAt text i (c :: rest)) :
    colonAt? text depth none (i + 1) = colonAt? text depth none (i + c.utf8Size) := by
  refine h.skip fun j b hb hle => ?_
  have hne : ∀ d : Char, d.toNat < 128 → b ≠ d.toUInt8 := fun d => ne_toUInt8_of_le hle
  rw [colonAt?_plain hb, if_neg (not_or.mpr ⟨hne _ (by decide), hne _ (by decide)⟩),
    if_neg (hne _ (by decide)), if_neg (hne _ (by decide)), if_neg fun hx => hne _ (by decide) hx.1]

theorem colonAt?_skip_quoted {q : Char} (hq : isQuote q) (h : RestAt text i (c :: rest)) :
    colonAt? text depth (some q.toUInt8) (i + 1) =
      colonAt? text depth (some q.toUInt8) (i + c.utf8Size) := by
  refine h.skip fun j b hb hle => ?_
  rw [colonAt?_quoted hb, if_neg (ne_toUInt8_of_le hle (by decide)),
    if_neg (ne_toUInt8_of_le hle (toNat_lt_of_isQuote hq))]

end

namespace ColonSearch

/-- The search over bytes from where the search over characters stands. -/
def scan (text : Text) (i : Nat) : ColonSearch → Option Nat
  | plain depth => colonAt? text depth none i
  | quoted depth quote => colonAt? text depth (some quote.toUInt8) i
  | escape depth quote => colonAt? text depth (some quote.toUInt8) (i + 1)

def Quoting : ColonSearch → Prop
  | plain _ => True
  | quoted _ quote => isQuote quote
  | escape _ quote => isQuote quote

variable {text rest : Text} {i : Nat} {c : Char} {s : ColonSearch}

theorem Quoting.step (h : s.Quoting) (c : Char) : (s.step c).Quoting := by
  cases s with
  | plain depth =>
    rw [ColonSearch.step]
    split
    · next hq => simpa [Quoting, isQuote] using hq
    · repeat' split
      all_goals trivial
  | quoted depth quote =>
    rw [ColonSearch.step]
    repeat' split
    all_goals first | exact h | trivial
  | escape depth quote => exact h

theorem scan_nil (h : RestAt text i []) : s.scan text i = none := by
  cases s with
  | plain depth => exact colonAt?_of_none (h.no_byte 0)
  | quoted depth quote => exact colonAt?_of_none (h.no_byte 0)
  | escape depth quote => exact colonAt?_of_none (h.no_byte 1)

theorem finds_plain_iff {depth : Nat} : (plain depth).finds c ↔ c = ':' ∧ depth = 0 := by
  simp [finds, and_comm]

theorem scan_plain {depth : Nat} (h : RestAt text i (c :: rest)) : (plain depth).scan text i =
    if (plain depth).finds c then some i
    else ((plain depth).step c).scan text (i + c.utf8Size) := by
  obtain ⟨b, hb, hc⟩ := h.exists_byte
  rw [scan, colonAt?_plain hb, ColonSearch.step]
  by_cases hq : c = '"' ∨ c = '\''
  · have hbc : b = c.toUInt8 := by
      rcases hq with rfl | rfl <;> exact (hc _ (by decide)).mpr rfl
    have hf : ¬ (plain depth).finds c := by
      rw [finds_plain_iff]
      rcases hq with rfl | rfl <;> simp
    have hsize : c.utf8Size = 1 := by rcases hq with rfl | rfl <;> rfl
    rw [if_pos (hq.imp (hc _ (by decide)).mpr (hc _ (by decide)).mpr), if_neg hf, if_pos hq, hbc,
      hsize, scan]
  rw [if_neg fun hx => hq (hx.imp (hc _ (by decide)).mp (hc _ (by decide)).mp), if_neg hq]
  by_cases hopen : c = '('
  · rw [if_pos ((hc _ (by decide)).mpr hopen), if_pos hopen, colonAt?_skip_plain h, if_neg, scan]
    simp [finds_plain_iff, hopen]
  rw [if_neg fun hx => hopen ((hc _ (by decide)).mp hx), if_neg hopen]
  by_cases hclose : c = ')'
  · rw [if_pos ((hc _ (by decide)).mpr hclose), if_pos hclose, colonAt?_skip_plain h, if_neg, scan]
    simp [finds_plain_iff, hclose]
  rw [if_neg fun hx => hclose ((hc _ (by decide)).mp hx), if_neg hclose, scan,
    colonAt?_skip_plain h]
  exact if_congr ((and_congr_left' (hc _ (by decide))).trans finds_plain_iff.symm) rfl rfl

theorem scan_quoted {depth : Nat} {quote : Char} (hq : isQuote quote)
    (h : RestAt text i (c :: rest)) :
    (quoted depth quote).scan text i = ((quoted depth quote).step c).scan text (i + c.utf8Size) := by
  have hlt := toNat_lt_of_isQuote hq
  obtain ⟨b, hb, hc⟩ := h.exists_byte
  rw [scan, colonAt?_quoted hb, ColonSearch.step]
  by_cases hs : c = '\\'
  · rw [if_pos ((hc _ (by decide)).mpr hs), if_pos hs, hs]
    rfl
  rw [if_neg fun hx => hs ((hc _ (by decide)).mp hx), if_neg hs]
  by_cases hcq : c = quote
  · rw [if_pos ((hc _ hlt).mpr hcq), if_pos hcq, colonAt?_skip_plain h, scan]
  · rw [if_neg fun hx => hcq ((hc _ hlt).mp hx), if_neg hcq, colonAt?_skip_quoted hq h, scan]

theorem scan_cons (hs : s.Quoting) (h : RestAt text i (c :: rest)) :
    s.scan text i = if s.finds c then some i else (s.step c).scan text (i + c.utf8Size) := by
  cases s with
  | plain depth => exact scan_plain h
  | quoted depth quote => exact scan_quoted hs h
  | escape depth quote => exact colonAt?_skip_quoted hs h

theorem scan_eq (hs : s.Quoting) (h : RestAt text i rest) :
    s.scan text i = (s.split? rest).map fun parts => i + parts.1.byteLength := by
  induction rest generalizing s i with
  | nil => exact scan_nil h
  | cons c rest ih =>
    rw [scan_cons hs h, split?]
    split
    · rfl
    · rw [ih (hs.step c) h.step, Option.map_map]
      refine congrFun (congrArg Option.map (funext fun parts => ?_)) _
      rw [Function.comp, byteLength, Nat.add_assoc]

end ColonSearch

theorem colonAt?_eq (text : Text) : colonAt? text 0 none 0 = findColon? text := by
  have h : (ColonSearch.plain 0).scan text 0 =
      ((ColonSearch.plain 0).split? text).map fun parts => 0 + parts.1.byteLength :=
    ColonSearch.scan_eq trivial (RestAt.start text)
  simp only [Nat.zero_add] at h
  exact h

/-! ### Padding -/

def splitPadding (text : Text) : Outcome Padded := do
  let bodyStart := text.byteLength - (trimStart text).byteLength
  let bodyStop := max (trimEnd text).byteLength bodyStart
  let leading ← slice text 0 bodyStart
  let body ← slice text bodyStart bodyStop
  let trailing ← sliceFrom text bodyStop
  return { leading, body, trailing }

/-- The body ends where the text trimmed at its end does, unless there is no body. -/
theorem max_byteLength_trimEnd (text : Text) :
    max (trimEnd text).byteLength (padding text).leading.byteLength =
      (padding text).leading.byteLength + (padding text).body.byteLength := by
  have hw : (padding text).leading ++ text.dropWhile isBlank = text :=
    List.takeWhile_append_dropWhile
  by_cases hb : (padding text).body = []
  · have hd : text.dropWhile isBlank = [] :=
      (trimEnd_eq_nil_iff (noBlankStart_dropWhile text)).mp hb
    rw [hd, List.append_nil] at hw
    have hle := congrArg byteLength (trimEnd_append text)
    rw [byteLength_append] at hle
    rw [hb, hw]
    exact max_eq_right (Nat.le.intro hle)
  · have ht : trimEnd text = (padding text).leading ++ (padding text).body := by
      conv => lhs; rw [← hw]
      exact trimEnd_append_of_ne_nil hb
    rw [ht, byteLength_append]
    exact max_eq_left (Nat.le_add_right _ _)

theorem splitPadding_eq (text : Text) : splitPadding text = .ok (padding text) := by
  have hleading : RestAt text 0 ((padding text).leading ++
      ((padding text).body ++ (padding text).trailing)) := by
    rw [padding_append]
    exact RestAt.start text
  have hbody := hleading.forward
  have htrailing := hbody.forward
  have hstart : text.byteLength - (trimStart text).byteLength = (padding text).leading.byteLength := by
    have hw : (padding text).body ++ (padding text).trailing = trimStart text := trimEnd_append _
    rw [hw] at hbody
    rw [← hbody.length, Nat.zero_add, Nat.add_sub_cancel]
  rw [splitPadding]
  simp only [hstart, max_byteLength_trimEnd]
  rw [Nat.zero_add] at hbody htrailing
  have h := slice_eq hleading
  rw [Nat.zero_add] at h
  rw [h, Outcome.ok_bind, slice_eq hbody, Outcome.ok_bind, sliceFrom_eq htrailing]
  rfl

end StyleValues
