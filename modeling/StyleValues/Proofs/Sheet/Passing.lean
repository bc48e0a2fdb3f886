import StyleValues.Proofs.Definition.Lexing
import StyleValues.Proofs.Sheet.ClosedTexts
import StyleValues.Proofs.Substitution.Tokens

/-!
# Other tokens in a text

What stands behind a token sees nothing of it but the reading that it leaves.
So the tokens of a text can be replaced, each by a text that leaves the same
reading, and the statement still ends where it ended. A word leaves nothing
open and closes nothing, wherever it stands, and so does a word with a call
behind it.
-/

set_option autoImplicit false

namespace StyleValues

open Text

namespace Reading

/-- A text in which no character ends a statement leads from one reading to another. -/
def Passes (r : Reading) (s : Text) (r' : Reading) : Prop := (r.split s).2 = [] ∧ s.foldl step r = r'

/-- The reading, if a slash that was read last begins no comment. -/
def settled : Reading → Reading
  | ⟨depth, .slash⟩ => ⟨depth, .code⟩
  | r => r

/-- A text that can stand for another one behind that reading. -/
structure Fits (r : Reading) (s t : Text) : Prop where
  ne_nil : t ≠ []
  trimmed : trim t = t
  ends_nothing : (r.split t).2 = []
  settled : (t.foldl step r).settled = (s.foldl step r).settled

/-- Whether `t` can be written for `s`, which is trimmed and is read from `r` on. -/
def Rewords (r : Reading) (s t : Text) : Prop :=
  (s = [] → t = []) ∧ (s ≠ [] → trim s = s → (r.split s).2 = [] → r.Fits s t)

/-- Whether `f` gives a fitting text for every token of a text that is read from `r` on, with the
token characters `run` in front of it. An asterisk behind the token makes no comment of it. -/
def Takes (f : Text → Text) (run : Text) (r : Reading) : Text → Prop
  | [] => run ≠ [] → r.Fits run (f run)
  | c :: rest =>
    if isTokenChar c then Takes f (run ++ [c]) r rest
    else (run ≠ [] → r.Fits run (f run) ∧ (c = '*' → r.Passes (f run) (run.foldl step r))) ∧
      Takes f [] ((run ++ [c]).foldl step r) rest

section
variable {r r' r'' : Reading} {s t : Text} {c : Char}

theorem Passes.append (hs : r.Passes s r') (ht : r'.Passes t r'') : r.Passes (s ++ t) r'' := by
  obtain ⟨hn, rfl⟩ := hs
  exact ⟨by rw [split_append_of_nil hn]; exact ht.1, by rw [List.foldl_append]; exact ht.2⟩

theorem passes_nil (r : Reading) : r.Passes [] r := ⟨rfl, rfl⟩

theorem passes_cons_iff : r.Passes (c :: s) r' ↔ r.stops c = false ∧ (r.step c).Passes s r' := by
  rw [Passes, Passes, split]
  split
  · next hc => simp [hc]
  · next hc => simp [Bool.eq_false_iff.mpr hc]

theorem passes_append_iff :
    r.Passes (s ++ t) r' ↔ r.Passes s (s.foldl step r) ∧ (s.foldl step r).Passes t r' := by
  constructor
  · rintro ⟨hn, hf⟩
    have hs := split_of_append hn
    rw [split_append_of_nil hs] at hn
    rw [List.foldl_append] at hf
    exact ⟨⟨hs, rfl⟩, hn, hf⟩
  · exact fun h => h.1.append h.2

theorem stops_of_settled (h : r.settled = r'.settled) : r.stops c = r'.stops c := by
  have hs : ∀ r : Reading, r.stops c = r.settled.stops c := by
    rintro ⟨depth, mode⟩
    cases mode <;> rfl
  rw [hs, h, ← hs]

theorem step_of_settled (h : r.settled = r'.settled) (hc : c ≠ '*') : r.step c = r'.step c := by
  have hs : ∀ r : Reading, r.step c = r.settled.step c := by
    rintro ⟨depth, mode⟩
    cases mode
    case slash => exact if_neg hc
    all_goals rfl
  rw [hs, h, ← hs]

theorem Fits.append_blanks {u : Text} (h : r.Fits s t) (hu : ∀ c ∈ u, isBlank c) :
    (r.split (t ++ u)).2 = [] ∧ ((t ++ u).foldl step r).settled = ((s ++ u).foldl step r).settled := by
  have hn : ∀ {r : Reading} {u : Text}, (∀ c ∈ u, isBlank c) → (r.split u).2 = [] := by
    intro r u hu
    induction u generalizing r with
    | nil => rfl
    | cons c u ih =>
      obtain ⟨-, hur⟩ := List.forall_mem_cons.mp hu
      rw [split, stops_neutral (neutral_of_blanks hu c (List.mem_cons_self ..))]
      exact ih hur
  refine ⟨by rw [split_append_of_nil h.ends_nothing]; exact hn hu, ?_⟩
  rw [List.foldl_append, List.foldl_append]
  cases u with
  | nil => exact h.settled
  | cons c u =>
    have hc : c ≠ '*' := by
      rintro rfl
      obtain ⟨hb, -⟩ := List.forall_mem_cons.mp hu
      cases hb
    rw [List.foldl_cons, List.foldl_cons, step_of_settled h.settled hc]

end

/-! ### Replaced tokens -/

section
variable {f : Text → Text} {r : Reading} {w s rest : Text} {c : Char}

theorem takes_of_all (hw : ∀ c ∈ w, isTokenChar c) : r.Takes f [] w ↔ (w ≠ [] → r.Fits w (f w)) := by
  have h : ∀ run, r.Takes f run w ↔ (run ++ w ≠ [] → r.Fits (run ++ w) (f (run ++ w))) := by
    induction w with
    | nil => intro run; rw [Takes, List.append_nil]
    | cons c w ih =>
      obtain ⟨hc, hw⟩ := List.forall_mem_cons.mp hw
      intro run
      rw [Takes, if_pos hc, ih hw, List.append_assoc, List.singleton_append]
  exact h []

theorem takes_append_cons (hw : ∀ c ∈ w, isTokenChar c) (hc : ¬ isTokenChar c) :
    r.Takes f [] (w ++ c :: rest) ↔
      (w ≠ [] → r.Fits w (f w) ∧ (c = '*' → r.Passes (f w) (w.foldl step r))) ∧
        ((w.foldl step r).step c).Takes f [] rest := by
  have h : ∀ run, r.Takes f run (w ++ c :: rest) ↔
      (run ++ w ≠ [] → r.Fits (run ++ w) (f (run ++ w)) ∧
          (c = '*' → r.Passes (f (run ++ w)) ((run ++ w).foldl step r))) ∧
        ((run ++ w ++ [c]).foldl step r).Takes f [] rest := by
    induction w with
    | nil => intro run; rw [List.nil_append, Takes, if_neg hc, List.append_nil]
    | cons d w ih =>
      obtain ⟨hd, hw⟩ := List.forall_mem_cons.mp hw
      intro run
      rw [List.cons_append, Takes, if_pos hd, ih hw, List.append_assoc run, List.singleton_append]
  have hr := h []
  rw [List.nil_append, List.foldl_append] at hr
  exact hr

variable (hf : f [] = [])
include hf

theorem eq_nil_or_fits (h : w ≠ [] → r.Fits w (f w)) : (w = [] ∧ f w = []) ∨ r.Fits w (f w) := by
  by_cases hn : w = []
  · exact Or.inl ⟨hn, by rw [hn, hf]⟩
  · exact Or.inr (h hn)

theorem Takes.leads (h : r.Takes f [] s) (hs : (r.split s).2 = []) :
    (r.split (mapRuns isTokenChar f s)).2 = [] ∧
      ((mapRuns isTokenChar f s).foldl step r).settled = (s.foldl step r).settled := by
  induction s using cutInduction (q := isTokenChar) generalizing r with
  | run w hw =>
    rw [mapRuns_of_all hw]
    rcases eq_nil_or_fits hf ((takes_of_all hw).mp h) with ⟨rfl, hw⟩ | h
    · rw [hw]
      exact ⟨rfl, rfl⟩
    · exact ⟨h.ends_nothing, h.settled⟩
  | cut w c rest hw hc ih =>
    obtain ⟨hfit, hrest⟩ := (takes_append_cons hw hc).mp h
    obtain ⟨-, hp⟩ := passes_append_iff.mp (⟨hs, rfl⟩ : r.Passes (w ++ c :: rest) _)
    obtain ⟨hstop, htail⟩ := passes_cons_iff.mp hp
    obtain ⟨hn, hstop', hstep⟩ : (r.split (f w)).2 = [] ∧ ((f w).foldl step r).stops c = false ∧
        ((f w).foldl step r).step c = (w.foldl step r).step c := by
      by_cases hw : w = []
      · rw [hw] at hstop ⊢
        rw [hf]
        exact ⟨rfl, hstop, rfl⟩
      · obtain ⟨hfits, hstar⟩ := hfit hw
        refine ⟨hfits.ends_nothing, (stops_of_settled hfits.settled).trans hstop, ?_⟩
        by_cases hc : c = '*'
        · rw [(hstar hc).2]
        · exact step_of_settled hfits.settled hc
    obtain ⟨h1, h2⟩ := ih hrest htail.1
    rw [mapRuns_append_cons _ _ hc, mapRuns_of_all hw, List.foldl_append, List.foldl_append,
      List.foldl_cons, List.foldl_cons, hstep, split_append_of_nil hn, split, hstop', hstep]
    exact ⟨h1, h2⟩

omit hf in
theorem Takes.forall_runs (h : r.Takes f [] s) :
    ∀ w ∈ runs isTokenChar s, f w ≠ [] ∧ trim (f w) = f w := by
  have hrun : ∀ {r : Reading} {w : Text}, (∀ c ∈ w, isTokenChar c) → (w ≠ [] → r.Fits w (f w)) →
      ∀ v ∈ runs isTokenChar w, f v ≠ [] ∧ trim (f v) = f v := by
    intro r w hw h v hv
    rw [runs_of_all hw] at hv
    split at hv
    · cases hv
    · next hn =>
      rw [List.mem_singleton.mp hv]
      have hfit := h fun he => hn (List.isEmpty_iff.mpr he)
      exact ⟨hfit.ne_nil, hfit.trimmed⟩
  induction s using cutInduction (q := isTokenChar) generalizing r with
  | run w hw => exact hrun hw ((takes_of_all hw).mp h)
  | cut w c rest hw hc ih =>
    obtain ⟨hfit, hrest⟩ := (takes_append_cons hw hc).mp h
    rw [runs_append_cons _ _ hc, List.forall_mem_append]
    exact ⟨hrun hw fun hn => (hfit hn).1, ih hrest⟩

end

/-! ### Texts that pass like a word -/

def Quoting : Reading → Prop
  | ⟨_, .quoted quote⟩ => isQuote quote
  | ⟨_, .quotedEscape quote⟩ => isQuote quote
  | _ => True

/-- A text that leads every reading where a word leads it. -/
def Seamless (t : Text) : Prop := ∀ r : Reading, r.Quoting → r.Passes t (r.step '_')

section
variable {r : Reading} {s t : Text} {c : Char}

theorem quoting_stepCode (depth : Nat) (c : Char) : (stepCode depth c).Quoting := by
  rw [stepCode]
  split
  · trivial
  · split
    · next hq => rcases hq with rfl | rfl <;> rfl
    · repeat' split
      all_goals trivial

theorem Quoting.step (h : r.Quoting) (c : Char) : (r.step c).Quoting := by
  obtain ⟨depth, mode⟩ := r
  cases mode <;> rw [Reading.step]
  case code => exact quoting_stepCode depth c
  case slash =>
    split
    · trivial
    · exact quoting_stepCode depth c
  case quoted =>
    repeat' split
    all_goals first | exact h | trivial
  case quotedEscape => exact h
  all_goals
    repeat' split
    all_goals trivial

theorem Quoting.foldl (h : r.Quoting) (s : Text) : (s.foldl Reading.step r).Quoting := by
  induction s generalizing r with
  | nil => exact h
  | cons c s ih => exact ih (h.step c)

theorem Quoting.step_neutral (h : r.Quoting) (hc : c ∉ readingMarks) :
    r.step c = r.step '_' ∧ (r.step '_').step c = r.step '_' := by
  simp only [readingMarks, List.mem_cons, List.not_mem_nil, or_false, not_or] at hc
  obtain ⟨depth, mode⟩ := r
  cases mode
  case quoted quote =>
    rcases isQuote_cases h with rfl | rfl <;> simp [Reading.step, hc]
  case quotedEscape quote =>
    rcases isQuote_cases h with rfl | rfl <;> simp [Reading.step, hc]
  all_goals simp [Reading.step, stepCode, hc]

theorem seamless_of_neutral (hne : t ≠ []) (ht : Neutral t) : Seamless t := by
  intro r hr
  obtain ⟨c, t, rfl⟩ := List.exists_cons_of_ne_nil hne
  obtain ⟨hc, ht⟩ := List.forall_mem_cons.mp ht
  rw [passes_cons_iff, (hr.step_neutral hc).1]
  refine ⟨stops_neutral hc r, ?_⟩
  clear hne
  induction t with
  | nil => exact passes_nil _
  | cons d t ih =>
    obtain ⟨hd, ht'⟩ := List.forall_mem_cons.mp ht
    rw [passes_cons_iff, (hr.step_neutral hd).2]
    exact ⟨stops_neutral hd _, ih (Neutral.cons hc ht') ht'⟩

theorem Seamless.ne_nil (h : Seamless t) : t ≠ [] := by
  rintro rfl
  cases (h ⟨0, .slash⟩ trivial).2

theorem Seamless.call (hs : Seamless s) (ht : Seamless t) : Seamless (s ++ '(' :: (t ++ [')'])) := by
  intro r hr
  refine (hs r hr).append (passes_cons_iff.mpr ⟨by simp [stops], ?_⟩)
  have hq := (hr.step '_').step '('
  refine (ht _ hq).append (passes_cons_iff.mpr ⟨by simp [stops], ?_⟩)
  obtain ⟨depth, mode⟩ := r
  cases mode
  case quoted quote => rcases isQuote_cases hr with rfl | rfl <;> exact passes_nil _
  case quotedEscape quote => rcases isQuote_cases hr with rfl | rfl <;> exact passes_nil _
  all_goals exact passes_nil _

theorem Seamless.selfContained (h : Seamless t) : SelfContained t := by
  obtain ⟨hn, hf⟩ := h {} trivial
  rw [SelfContained, hf]
  exact ⟨hn, rfl, rfl⟩

theorem neutral_of_tokens (ht : ∀ c ∈ t, isTokenChar c) : Neutral t := neutral_of_all rfl ht

variable {f : Text → Text} (hr : r.Quoting)
include hr

theorem Seamless.passes (ht : Seamless t) (hne : s ≠ []) (hs : Neutral s) :
    r.Passes t (s.foldl step r) := by
  rw [(seamless_of_neutral hne hs r hr).2]
  exact ht r hr

theorem takes_of_seamless (h : ∀ w ∈ tokensIn s, Seamless (f w) ∧ trim (f w) = f w) :
    r.Takes f [] s := by
  have hword : ∀ {r : Reading} {w : Text}, r.Quoting → (∀ c ∈ w, isTokenChar c) →
      (∀ v ∈ runs isTokenChar w, Seamless (f v) ∧ trim (f v) = f v) → w ≠ [] →
        r.Fits w (f w) ∧ r.Passes (f w) (w.foldl step r) := by
    intro r w hr hw h hn
    obtain ⟨hs, ht⟩ := h w (by rw [runs_of_all hw]; simp [hn])
    have hp := hs.passes hr hn (neutral_of_tokens hw)
    exact ⟨⟨hs.ne_nil, ht, hp.1, congrArg Reading.settled hp.2⟩, hp⟩
  rw [tokensIn_eq_runs] at h
  induction s using cutInduction (q := isTokenChar) generalizing r with
  | run w hw => exact (takes_of_all hw).mpr fun hn => (hword hr hw h hn).1
  | cut w c rest hw hc ih =>
    rw [runs_append_cons _ _ hc, List.forall_mem_append] at h
    exact (takes_append_cons hw hc).mpr ⟨fun hn => (hword hr hw h.1 hn).imp_right fun hp _ => hp,
      ih ((hr.foldl w).step c) h.2⟩

variable {q : Char → Bool} (hq : readingMarks.all fun c => !q c) (hf : f [] = [])
include hq hf

theorem passes_mapRuns (h : ∀ w ∈ runs q s, Seamless (f w)) (hs : (r.split s).2 = []) :
    r.Passes (mapRuns q f s) (s.foldl step r) := by
  have hword : ∀ {r : Reading} {w : Text}, r.Quoting → (∀ c ∈ w, q c) →
      (∀ v ∈ runs q w, Seamless (f v)) → r.Passes (f w) (w.foldl step r) := by
    intro r w hr hw h
    by_cases hn : w = []
    · rw [hn, hf]
      exact passes_nil r
    · exact (h w (by rw [runs_of_all hw]; simp [hn])).passes hr hn (neutral_of_all hq hw)
  induction s using cutInduction (q := q) generalizing r with
  | run w hw =>
    rw [mapRuns_of_all hw]
    exact hword hr hw h
  | cut w c rest hw hc ih =>
    rw [runs_append_cons _ _ hc, List.forall_mem_append] at h
    obtain ⟨-, hp⟩ := passes_append_iff.mp (⟨hs, rfl⟩ : r.Passes (w ++ c :: rest) _)
    obtain ⟨hstop, htail⟩ := passes_cons_iff.mp hp
    rw [mapRuns_append_cons _ _ hc, mapRuns_of_all hw, List.foldl_append]
    exact (hword hr hw h.1).append
      (passes_cons_iff.mpr ⟨hstop, ih ((hr.foldl w).step c) h.2 htail.1⟩)

omit hr in
theorem Seamless.mapRuns (hs : Seamless s) (h : ∀ w ∈ runs q s, Seamless (f w)) :
    Seamless (mapRuns q f s) := by
  intro r hr
  have hp := passes_mapRuns hr hq hf h (hs r hr).1
  rwa [(hs r hr).2] at hp

end

end Reading

/-! ### Where a statement ends -/

section
variable {a b rest : Text} {terminator : Terminator}

theorem openFault?_eq_none_congr
    (h : (a.foldl Reading.step {}).settled = (b.foldl Reading.step {}).settled) :
    openFault? a = none ↔ openFault? b = none := by
  have hs : ∀ t, openFault? t = none ↔ (t.foldl Reading.step {}).settled.inCode ∨
      (t.foldl Reading.step {}).settled.mode = .escape := by
    intro t
    rw [openFault?]
    obtain ⟨depth, mode⟩ := t.foldl Reading.step {}
    cases mode <;> simp [Reading.settled, Reading.inCode]
  rw [hs, h, ← hs]

theorem cutStatement_append_eq_iff : cutStatement (a ++ rest) = .ok ⟨a, terminator, rest⟩ ↔
    (Reading.split {} a).2 = [] ∧
      ((rest = [] ∧ terminator = .endOfText ∧ openFault? a = none) ∨
        ∃ c tail, rest = c :: tail ∧ terminator = .ofChar c ∧ (a.foldl Reading.step {}).stops c) := by
  rw [cutStatement]
  constructor
  · intro h
    split at h
    · next body c tail hs =>
      cases h
      obtain ⟨hn, hc⟩ := Reading.split_append_cons_iff.mp hs
      exact ⟨hn, Or.inr ⟨c, tail, rfl, rfl, hc⟩⟩
    · next body hs =>
      split at h <;> cases h
      next hf =>
      rw [List.append_nil] at hs
      exact ⟨by rw [hs], Or.inl ⟨rfl, rfl, hf⟩⟩
  · rintro ⟨hn, ⟨rfl, rfl, hf⟩ | ⟨c, tail, rfl, rfl, hc⟩⟩
    · have ha := Reading.split_append {} a
      rw [hn, List.append_nil] at ha
      have hs : Reading.split {} (a ++ []) = (a, []) := by
        rw [List.append_nil]
        exact Prod.ext ha hn
      rw [hs]
      simp only [hf]
    · rw [Reading.split_append_cons_iff.mpr ⟨hn, hc⟩]

theorem SelfContained.openFault?_eq_none (h : SelfContained a) : openFault? a = none := by
  obtain ⟨-, hi, -⟩ := h
  rw [openFault?]
  cases hm : (a.foldl Reading.step {}).mode <;> simp_all [Reading.inCode]

theorem SelfContained.behind (hb : SelfContained b) (ha : Reading.Passes {} a {}) :
    SelfContained (a ++ b) := by
  obtain ⟨hn, hf⟩ := ha
  rw [SelfContained, Reading.split_append_of_nil hn, List.foldl_append, hf]
  exact hb

theorem passes_of_colon (ha : SelfContained (a ++ [':'])) (hb : Neutral b) (hne : b ≠ []) :
    Reading.Passes {} (a ++ b) {} := by
  have hq : (a.foldl Reading.step {}).Quoting := Reading.Quoting.foldl (r := {}) trivial a
  obtain ⟨hstep, htwice⟩ := hq.step_neutral (c := ':') (by decide)
  obtain ⟨hn, hi, hd⟩ := ha
  rw [List.foldl_append, List.foldl_cons, List.foldl_nil, hstep] at hi hd
  rw [Reading.step_neutral hi hd (by decide)] at htwice
  have hp := Reading.seamless_of_neutral hne hb _ hq
  rw [← htwice] at hp
  exact Reading.Passes.append ⟨Reading.split_of_append hn, rfl⟩ hp

/-- With a text that can be written for another one, a statement ends where it ended. -/
theorem cutStatement_of_rewords {front s t u : Text}
    (h : cutStatement (front ++ (s ++ u) ++ rest) = .ok ⟨front ++ (s ++ u), terminator, rest⟩)
    (hne : s ≠ []) (ht : trim s = s) (hu : ∀ c ∈ u, isBlank c)
    (hw : (front.foldl Reading.step {}).Rewords s t) :
    (front.foldl Reading.step {}).Fits s t ∧
      cutStatement (front ++ (t ++ u) ++ rest) = .ok ⟨front ++ (t ++ u), terminator, rest⟩ := by
  obtain ⟨hn, hend⟩ := cutStatement_append_eq_iff.mp h
  have hfront := Reading.split_of_append hn
  rw [Reading.split_append_of_nil hfront] at hn
  have hfit := hw.2 hne ht (Reading.split_of_append hn)
  obtain ⟨hn', hs⟩ := hfit.append_blanks hu
  rw [← List.foldl_append, ← List.foldl_append] at hs
  refine ⟨hfit, cutStatement_append_eq_iff.mpr ⟨?_, hend.imp ?_ ?_⟩⟩
  · rw [Reading.split_append_of_nil hfront]
    exact hn'
  · exact fun hr => ⟨hr.1, hr.2.1, (openFault?_eq_none_congr hs).mpr hr.2.2⟩
  · rintro ⟨c, tail, hr, hc, hstop⟩
    exact ⟨c, tail, hr, hc, (Reading.stops_of_settled hs).trans hstop⟩

end

end StyleValues
