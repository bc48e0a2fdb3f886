import StyleValues.Proofs.Substitution.Tokens
import StyleValues.Proofs.Text.Bytes
import StyleValues.Proofs.Text.Pieces

/-!
# Substitution by copying

A substitution goes over a text once. It keeps the byte at which the token it
is in began, the byte up to which the text is copied, and what is put out, if
there was anything to replace at all. Every slice is checked, and the look-up
may be any action: what it does shows how often it is asked, about what, and
in which order.
-/

set_option autoImplicit false

namespace StyleValues

open Text

structure Copying where
  /-- The text put out, once something is replaced. -/
  output? : Option Text := none
  /-- The byte up to which the text is dealt with. -/
  copied : Nat := 0
  /-- The byte at which the open token begins. -/
  opened? : Option Nat := none

namespace Copying

variable {m : Type → Type} [Monad m]

def part (s : Text) (start stop : Nat) : OptionT m Text := OptionT.mk (pure (slice? s start stop))

def flush (lookup : Text → m (Option Text)) (s : Text) (w : Copying) (start stop : Nat) :
    OptionT m Copying := do
  let token ← part s start stop
  let value? ← OptionT.lift (lookup token)
  match value? with
  | none => return { w with opened? := none }
  | some value =>
    let kept ← part s w.copied start
    return { output? := some (w.output?.getD [] ++ kept ++ value), copied := stop }

def pass (lookup : Text → m (Option Text)) (s : Text) (i : Nat) : Text → Copying → OptionT m Copying
  | [], w =>
    match w.opened? with
    | none => return w
    | some start => w.flush lookup s start s.byteLength
  | c :: rest, w =>
    match w.opened?, isTokenChar c with
    | none, true => pass lookup s (i + c.utf8Size) rest { w with opened? := some i }
    | some start, false => do
      let w ← w.flush lookup s start i
      pass lookup s (i + c.utf8Size) rest w
    | _, _ => pass lookup s (i + c.utf8Size) rest w

def finish (s : Text) (w : Copying) : OptionT m Text :=
  match w.output? with
  | none => return s
  | some output => do
    let kept ← part s w.copied s.byteLength
    return output ++ kept

end Copying

/-- Substitution with every slice checked and a look-up that may have effects. -/
def checkedSubstitute {m : Type → Type} [Monad m] (lookup : Text → m (Option Text)) (s : Text) :
    OptionT m Text := do
  let w ← Copying.pass lookup s 0 s {}
  w.finish s

/-- What stands for a piece of a text: a token is looked up, other text stays. -/
def substitutePiece {m : Type → Type} [Monad m] (lookup : Text → m (Option Text)) (p : Text) :
    m Text :=
  if p.all isTokenChar then (fun value? => value?.getD p) <$> lookup p else pure p

namespace Copying

variable {m : Type → Type} [Monad m] {lookup : Text → m (Option Text)} {s kept rest : Text}
  {w : Copying} {i : Nat}

theorem part_eq {t : Text} (h : RestAt s i (t ++ rest)) :
    (part s i (i + t.byteLength) : OptionT m Text) = pure t := by
  rw [part, slice?_eq_some_iff.mpr ⟨rest, h, rfl⟩]
  rfl

/-- Between two tokens: what is not yet copied is `kept`, and `rest` is still to come. -/
structure Between (s : Text) (w : Copying) (kept rest : Text) : Prop where
  closed : w.opened? = none
  restAt : RestAt s w.copied (kept ++ rest)
  untouched : w.output? = none → w.copied = 0

def front (w : Copying) (kept : Text) : Text := w.output?.getD [] ++ kept

def settle (w : Copying) (kept : Text) (stop : Nat) : Option Text → Copying
  | none => { w with opened? := none }
  | some value => { output? := some (w.front kept ++ value), copied := stop }

variable [LawfulMonad m]

theorem flush_eq {token : Text} {start stop : Nat} (h : RestAt s w.copied (kept ++ (token ++ rest)))
    (hstart : w.copied + kept.byteLength = start) (hstop : start + token.byteLength = stop) :
    w.flush lookup s start stop = w.settle kept stop <$> OptionT.lift (lookup token) := by
  subst hstart hstop
  rw [flush, part_eq h.forward, pure_bind, ← bind_pure_comp]
  congr 1
  funext value?
  cases value? with
  | none => rfl
  | some value =>
    simp only [part_eq h, pure_bind]
    rfl

section
variable {c : Char} {start : Nat}

omit [LawfulMonad m]

theorem pass_outside (hc : ¬ isTokenChar c) (hw : w.opened? = none) :
    pass lookup s i (c :: rest) w = pass lookup s (i + c.utf8Size) rest w := by
  rw [pass, hw, eq_false_of_ne_true hc]

theorem pass_opening (hc : isTokenChar c) (hw : w.opened? = none) :
    pass lookup s i (c :: rest) w =
      pass lookup s (i + c.utf8Size) rest { w with opened? := some i } := by
  rw [pass, hw, hc]

theorem pass_inside (hc : isTokenChar c) (hw : w.opened? = some start) :
    pass lookup s i (c :: rest) w = pass lookup s (i + c.utf8Size) rest w := by
  rw [pass, hw, hc]

theorem pass_closing (hc : ¬ isTokenChar c) (hw : w.opened? = some start) :
    pass lookup s i (c :: rest) w =
      w.flush lookup s start i >>= pass lookup s (i + c.utf8Size) rest := by
  rw [pass, hw, eq_false_of_ne_true hc]

theorem pass_other {p : Text} (hp : ∀ c ∈ p, ¬ isTokenChar c) (hw : w.opened? = none) :
    pass lookup s i (p ++ rest) w = pass lookup s (i + p.byteLength) rest w := by
  induction p generalizing i with
  | nil => rfl
  | cons c p ih =>
    obtain ⟨hc, hp⟩ := List.forall_mem_cons.mp hp
    rw [List.cons_append, pass_outside hc hw, ih hp, byteLength, Nat.add_assoc]

theorem pass_open {p : Text} (hp : ∀ c ∈ p, isTokenChar c) (hw : w.opened? = some start) :
    pass lookup s i (p ++ rest) w = pass lookup s (i + p.byteLength) rest w := by
  induction p generalizing i with
  | nil => rfl
  | cons c p ih =>
    obtain ⟨hc, hp⟩ := List.forall_mem_cons.mp hp
    rw [List.cons_append, pass_inside hc hw, ih hp, byteLength, Nat.add_assoc]

end

theorem opened_settle {value? : Option Text} {stop : Nat} :
    (w.settle kept stop value?).opened? = none := by
  cases value? <;> rfl

omit [LawfulMonad m] in
theorem pass_nil (hw : w.opened? = none) : pass lookup s i [] w = pure w := by rw [pass, hw]

theorem pass_token {p : Text} (hn : p ≠ []) (hp : ∀ c ∈ p, isTokenChar c)
    (hr : rest.head?.any isTokenChar = false) (hi : w.copied + kept.byteLength = i)
    (hw : Between s w kept (p ++ rest)) :
    pass lookup s i (p ++ rest) w = OptionT.lift (lookup p) >>= fun value? =>
      pass lookup s (i + p.byteLength) rest (w.settle kept (i + p.byteLength) value?) := by
  obtain ⟨c, p, rfl⟩ := List.exists_cons_of_ne_nil hn
  obtain ⟨hc, hp⟩ := List.forall_mem_cons.mp hp
  have hflush : flush lookup s { w with opened? := some i } i (i + byteLength (c :: p)) =
      w.settle kept (i + byteLength (c :: p)) <$> OptionT.lift (lookup (c :: p)) :=
    flush_eq (w := { w with opened? := some i }) hw.restAt hi rfl
  have hstop : i + c.utf8Size + byteLength p = i + byteLength (c :: p) := Nat.add_assoc ..
  rw [List.cons_append, pass_opening hc hw.closed, pass_open hp rfl, hstop]
  cases rest with
  | nil =>
    have hend : s.byteLength = i + byteLength (c :: p) := by
      rw [← hw.restAt.length, byteLength_append, List.append_nil, ← hi, Nat.add_assoc]
    rw [pass, hend]
    simp only [hflush, ← bind_pure_comp, pass_nil opened_settle]
  | cons d rest =>
    have hd : ¬ isTokenChar d := by simpa using hr
    rw [pass_closing hd rfl, hflush, map_eq_pure_bind, bind_assoc]
    simp only [pure_bind, pass_outside hd opened_settle]

theorem Between.behind {p : Text} (hw : Between s w kept (p ++ rest)) :
    Between s w (kept ++ p) rest where
  closed := hw.closed
  restAt := by
    rw [List.append_assoc]
    exact hw.restAt
  untouched := hw.untouched

theorem exists_between_settle {p : Text} (hw : Between s w kept (p ++ rest)) (value? : Option Text) :
    ∃ kept', Between s (w.settle kept (w.copied + kept.byteLength + p.byteLength) value?) kept' rest ∧
      (w.settle kept (w.copied + kept.byteLength + p.byteLength) value?).copied + kept'.byteLength =
        w.copied + kept.byteLength + p.byteLength ∧
      (w.settle kept (w.copied + kept.byteLength + p.byteLength) value?).front kept' =
        w.front kept ++ value?.getD p := by
  cases value? with
  | none =>
    refine ⟨kept ++ p, ⟨rfl, hw.behind.restAt, hw.untouched⟩, ?_, (List.append_assoc ..).symm⟩
    rw [byteLength_append, ← Nat.add_assoc]
    rfl
  | some value => exact ⟨[], ⟨rfl, hw.restAt.forward.forward, nofun⟩, rfl, List.append_nil _⟩

theorem finish_eq (hw : Between s w kept []) :
    (w.finish s : OptionT m Text) = pure (w.front kept) := by
  rw [finish, front]
  cases ho : w.output? with
  | none =>
    obtain ⟨before, hs, hb⟩ := hw.restAt
    rw [hw.untouched ho] at hb
    rw [byteLength_eq_zero hb, List.nil_append, List.append_nil] at hs
    rw [← hs]
    rfl
  | some output =>
    have hend : s.byteLength = w.copied + kept.byteLength := by
      rw [← hw.restAt.length, List.append_nil]
    simp only [hend, part_eq hw.restAt, pure_bind]
    rfl

/-- The way through the pieces of a text, from the beginning of one on. -/
theorem pass_pieces {ps : List Text} (hps : Alternating isTokenChar rest ps)
    (hw : Between s w kept rest) (hi : w.copied + kept.byteLength = i) :
    (pass lookup s i rest w >>= finish s).run =
      (fun tail => some (w.front kept ++ tail)) <$> ps.flatMapM (substitutePiece lookup) := by
  induction ps generalizing w kept rest i with
  | nil =>
    obtain rfl : [] = rest := hps.flatten
    rw [pass_nil hw.closed, pure_bind, finish_eq hw]
    simp
  | cons p ps ih =>
    obtain rfl := hps.cons_eq
    have hn : p ≠ [] := hps.ne_nil p (List.mem_cons_self ..)
    rw [List.flatMapM_cons, substitutePiece]
    cases hq : p.all isTokenChar with
    | true =>
      have hnext : ∀ value? : Option Text,
          (pass lookup s (i + p.byteLength) ps.flatten (w.settle kept (i + p.byteLength) value?) >>=
            finish s).run = (fun tail => some (w.front kept ++ (value?.getD p ++ tail))) <$>
              ps.flatMapM (substitutePiece lookup) := by
        intro value?
        subst hi
        obtain ⟨kept', hb, hi', hf⟩ := exists_between_settle hw value?
        rw [ih hps.tail hb hi', hf]
        simp only [List.append_assoc]
      rw [pass_token hn (List.all_eq_true.mp hq) (hps.head_behind hq) hi hw, bind_assoc,
        OptionT.run_bind_lift, if_pos rfl]
      simp only [hnext]
      simp
    | false =>
      rw [pass_other (hps.not_of_mem hq) hw.closed, if_neg Bool.false_ne_true,
        ih hps.tail hw.behind (by rw [byteLength_append, ← hi, Nat.add_assoc])]
      simp [front]

end Copying

section
variable {m : Type → Type} [Monad m] [LawfulMonad m]

/-- No slice goes astray, and the look-up is made for each token, once and in their order. -/
theorem checkedSubstitute_eq (lookup : Text → m (Option Text)) (s : Text) :
    (checkedSubstitute lookup s).run =
      some <$> (piecesBy isTokenChar s).flatMapM (substitutePiece lookup) := by
  have hw : Copying.Between s {} [] s := ⟨rfl, RestAt.start s, fun _ => rfl⟩
  exact Copying.pass_pieces (alternating_piecesBy s) hw rfl

def recording (lookup : Text → Option Text) (t : Text) : StateM (List Text) (Option Text) := do
  modify fun asked => asked ++ [t]
  return lookup t

theorem run_substitutePiece_recording (lookup : Text → Option Text) (p : Text)
    (asked : List Text) :
    (substitutePiece (recording lookup) p).run asked =
      if p.all isTokenChar then ((lookup p).getD p, asked ++ [p]) else (p, asked) := by
  rw [substitutePiece]
  split <;> rfl

theorem flatMapM_recording (lookup : Text → Option Text) (asked : List Text) (ps : List Text) :
    (ps.flatMapM (substitutePiece (recording lookup))).run asked =
      (ps.flatMap (fun p => if p.all isTokenChar then (lookup p).getD p else p),
        asked ++ ps.filter fun p => p.all isTokenChar) := by
  induction ps generalizing asked with
  | nil =>
    rw [List.filter_nil, List.append_nil]
    rfl
  | cons p ps ih =>
    rw [List.flatMapM_cons, StateT.run_bind, run_substitutePiece_recording, List.flatMap_cons,
      List.filter_cons]
    split
    · have hrun := ih (asked ++ [p])
      rw [List.append_assoc] at hrun
      exact congrArg (fun r : Text × List Text => ((lookup p).getD p ++ r.1, r.2)) hrun
    · exact congrArg (fun r : Text × List Text => (p ++ r.1, r.2)) (ih asked)

end

/-- A text is cut in one way only into pieces of token characters and of others, in turns. Substituting
puts the value of every piece of token characters that has one in its place and keeps all else, and
these pieces are what is looked up. A loop that copies the text from byte to byte takes no slice off
the characters; whatever looking up does, it is done for each of these pieces, once, from the left to
the right, and for nothing else. -/
theorem substitute_of_pieces (s : Text) :
    (∀ ps, Alternating isTokenChar s ps ↔ ps = piecesBy isTokenChar s) ∧
      (∀ lookup, substitute lookup s = (piecesBy isTokenChar s).flatMap fun p =>
        if p.all isTokenChar then (lookup p).getD p else p) ∧
      tokensIn s = maximalRuns isTokenChar s ∧
      (∀ (m : Type → Type) [Monad m] [LawfulMonad m] (lookup : Text → m (Option Text)),
        (checkedSubstitute lookup s).run =
          some <$> (piecesBy isTokenChar s).flatMapM (substitutePiece lookup)) ∧
      ∀ lookup asked, (checkedSubstitute (recording lookup) s).run.run asked =
        (some (substitute lookup s), asked ++ tokensIn s) := by
  have hs : ∀ lookup, substitute lookup s = (piecesBy isTokenChar s).flatMap fun p =>
      if p.all isTokenChar then (lookup p).getD p else p := by
    intro lookup
    rw [substitute_eq_mapRuns, mapRuns_eq_flatMap_piecesBy rfl]
    refine List.flatMap_congr fun p hp => ?_
    rw [substituteToken_of_ne_nil ((alternating_piecesBy s).ne_nil p hp)]
  have ht : tokensIn s = maximalRuns isTokenChar s := by
    rw [tokensIn_eq_runs, runs_eq_maximalRuns]
  refine ⟨fun ps => alternating_iff, hs, ht, fun m _ _ lookup => checkedSubstitute_eq lookup s, ?_⟩
  intro lookup asked
  rw [checkedSubstitute_eq, StateT.run_map, flatMapM_recording, hs, ht]
  rfl

/-- Three tokens are looked up, one is replaced, and the dot keeps the second in one piece. -/
theorem substitute_of_pieces_recorded :
    LawfulMonad (StateM (List Text)) ∧
      (checkedSubstitute (recording fun t => if t == "red".toList then some "#f00".toList else none)
        "1px é.red (red)".toList).run.run [] =
        (some "1px é.red (#f00)".toList, ["1px".toList, "é.red".toList, "red".toList]) := by
  refine ⟨inferInstance, ?_⟩
  rw [(substitute_of_pieces "1px é.red (red)".toList).2.2.2.1 (StateM (List Text)),
    StateT.run_map, flatMapM_recording]
  rfl

end StyleValues
