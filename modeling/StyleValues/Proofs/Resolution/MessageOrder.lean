import StyleValues.Proofs.Resolution.Preservation
import StyleValues.Proofs.Substitution.Identifiers
import StyleValues.Proofs.Text.Pieces

/-!
# Redirects in any order

Redirects apply one after the other, each to the text that those before it
left. If they are independent, no redirect finds what another one put in, and
no two look for the same identifier. Then all of them might as well apply at
once, and a run does not depend on the order of the messages that ask for them.
-/

set_option autoImplicit false

namespace StyleValues

open Text

/-! ### Independent redirects -/

namespace Redirects

/-- Whether the scoped identifiers are different names and none of them is a maximal run of name
characters in a text that takes the place of one. -/
structure Independent (rs : Redirects) : Prop where
  names : rs.AreNames
  ne_nil : ∀ e ∈ rs, e.1 ≠ []
  nodup : (rs.map Prod.fst).Nodup
  free : ∀ e ∈ rs, ∀ e' ∈ rs, e.1 ∉ maximalRuns isNameChar e'.2

/-- Replaces every maximal run of name characters that is a scoped identifier, all at once. -/
def simultaneous (rs : Redirects) (s : Text) : Text :=
  (piecesBy isNameChar s).flatMap fun p => if p.all isNameChar then (rs.lookup p).getD p else p

namespace Independent

variable {rs rs' : Redirects}

theorem of_perm (h : rs.Independent) (hp : rs'.Perm rs) : rs'.Independent where
  names e he := h.names e (hp.subset he)
  ne_nil e he := h.ne_nil e (hp.subset he)
  nodup := (hp.map Prod.fst).nodup_iff.mpr h.nodup
  free e he e' he' := h.free e (hp.subset he) e' (hp.subset he')

theorem not_mem_value (h : rs.Independent) {e e' : Text × Text} (he : e ∈ rs) (he' : e' ∈ rs) :
    e.1 ∉ identifiersIn e'.2 := by
  rw [identifiersIn, runs_eq_maximalRuns]
  exact h.free e he e' he'

/-- An identifier becomes the text of its own redirect: those in front look for another one, and
none of them changes that text. -/
theorem redirect_of_mem (h : rs.Independent) {e : Text × Text} (he : e ∈ rs) :
    redirect rs e.1 = e.2 := by
  have hv : redirect rs e.2 = e.2 :=
    redirect_of_not_mem h.names fun d hd => h.not_mem_value hd he
  obtain ⟨before, after, rfl⟩ := List.append_of_mem he
  have hb : e.1 ∉ before.map Prod.fst := by
    have hn := h.nodup
    rw [List.map_append, List.map_cons, List.nodup_middle, List.nodup_cons] at hn
    exact fun hm => hn.1 (List.mem_append_left _ hm)
  have hm : ∀ d ∈ before ++ [e], d.1 ∉ identifiersIn e.2 := by
    intro d hd
    refine h.not_mem_value ?_ he
    rcases List.mem_append.mp hd with hd | hd
    · exact List.mem_append_left _ hd
    · exact List.mem_append_right _ (List.mem_singleton.mp hd ▸ List.mem_cons_self ..)
  exact (redirect_scoped h.names (h.ne_nil e he) hb hm).trans hv

theorem redirect_of_ne (h : rs.Independent) {p : Text} (hp : ∀ c ∈ p, isNameChar c)
    (hn : ∀ e ∈ rs, e.1 ≠ p) : redirect rs p = p :=
  redirect_of_not_mem h.names fun e he hm => hn e he (eq_of_mem_identifiersIn hp hm)

theorem redirect_eq_simultaneous (h : rs.Independent) (s : Text) :
    redirect rs s = simultaneous rs s := by
  rw [redirect_eq_mapRuns h.names, mapRuns_eq_flatMap_piecesBy (redirect_nil rs), simultaneous]
  refine List.flatMap_congr fun p _ => ?_
  split
  · next hp =>
    cases hl : rs.lookup p with
    | none =>
      refine h.redirect_of_ne (List.all_eq_true.mp hp) fun e he hep => ?_
      exact bne_iff_ne.mp (List.lookup_eq_none_iff.mp hl e he) hep.symm
    | some value =>
      obtain ⟨before, after, rfl, -⟩ := List.lookup_eq_some_iff.mp hl
      exact h.redirect_of_mem (List.mem_append_right before (List.mem_cons_self ..))
  · rfl

theorem redirect_perm (h : rs.Independent) (hp : rs'.Perm rs) (s : Text) :
    redirect rs' s = redirect rs s := by
  have h' := h.of_perm hp
  rw [redirect_eq_mapRuns h'.names, redirect_eq_mapRuns h.names]
  refine mapRuns_congr ((redirect_nil rs').trans (redirect_nil rs).symm) fun p hr => ?_
  obtain ⟨-, hc⟩ := mem_runs hr
  by_cases hm : ∃ e ∈ rs, e.1 = p
  · obtain ⟨e, he, rfl⟩ := hm
    rw [h'.redirect_of_mem (hp.mem_iff.mpr he), h.redirect_of_mem he]
  · have hn : ∀ e ∈ rs, e.1 ≠ p := fun e he hep => hm ⟨e, he, hep⟩
    rw [h'.redirect_of_ne hc fun e he => hn e (hp.subset he), h.redirect_of_ne hc hn]

end Independent

end Redirects

/-- Independent redirects do the same to a text in any order, and what they do is to replace every
maximal run of name characters that is a scoped identifier by the text of its redirect, all at once. -/
theorem perm_simultaneous_of_redirect {rs : Redirects} (h : rs.Independent) (s : Text) :
    (∀ rs' : Redirects, rs'.Perm rs → redirect rs' s = redirect rs s) ∧
      redirect rs s = rs.simultaneous s :=
  ⟨fun _ hp => h.redirect_perm hp s, h.redirect_eq_simultaneous s⟩

/-- The name `s-2` that the second redirect puts in is another one than the `s` of the first. -/
theorem perm_simultaneous_of_redirect_swapped :
    Redirects.Independent [(['s'], "t x".toList), (['u'], "s-2".toList)] ∧
      redirect [(['s'], "t x".toList), (['u'], "s-2".toList)] ".s(u) s-u".toList =
        ".t x(s-2) s-u".toList ∧
      redirect [(['u'], "s-2".toList), (['s'], "t x".toList)] ".s(u) s-u".toList =
        ".t x(s-2) s-u".toList := by
  have h : Redirects.Independent [(['s'], "t x".toList), (['u'], "s-2".toList)] := by
    refine ⟨?_, by decide, by decide, ?_⟩
    · simp only [Redirects.AreNames, List.forall_mem_cons]
      exact ⟨⟨rfl, List.forall_mem_nil _⟩, ⟨rfl, List.forall_mem_nil _⟩, List.forall_mem_nil _⟩
    · simp only [List.forall_mem_cons]
      decide
  obtain ⟨hperm, hall⟩ := perm_simultaneous_of_redirect h ".s(u) s-u".toList
  have hs := hall.trans (rfl : _ = ".t x(s-2) s-u".toList)
  exact ⟨h, hs, (hperm _ (.swap _ _ [])).trans hs⟩

/-! ### Messages in any order -/

namespace Replacement

variable {r r' : Replacement}

/-- Replacements whose redirects do the same to every text do the same to a sheet. -/
theorem apply_congr (hb : r.bindings = r'.bindings) (hc : r.config = r'.config)
    (hr : redirect r.redirects = redirect r'.redirects) (nodes : List Node) :
    r.apply nodes = r'.apply nodes := by
  have ht : ∀ isTarget s, r.text isTarget s = r'.text isTarget s := by
    intro isTarget s
    rw [text, text, hb, hr]
  have hn : r.nodes nodes = r'.nodes nodes := by
    induction nodes using forestInduction with
    | nil => rfl
    | leaf content layout rest ih =>
      have hl : r.leaf content = r'.leaf content := by
        cases content <;> simp only [leaf, ht, hc]
      rw [Replacement.nodes, Replacement.nodes, node, node, hl, ih]
    | block head children layout rest ihc ihr =>
      have hh : r.head head = r'.head head := by
        cases head <;> simp only [Replacement.head, ht, hc]
      rw [Replacement.nodes, Replacement.nodes, node, node, hh, ihc, ihr]
  rw [apply, apply, hb, hn]

end Replacement

/-- The sheet and the report of a run do not depend on the order of the messages, if the redirects
that they ask for are independent. -/
theorem resolve_of_perm {config : Config} {input input' : List Message} {sheet : Stylesheet}
    (h : (redirectsOf (collect config sheet).bindings input).Independent) (hp : input'.Perm input) :
    resolve config input' sheet = resolve config input sheet := by
  have hr : redirect (redirectsOf (collect config sheet).bindings input') =
      redirect (redirectsOf (collect config sheet).bindings input) :=
    funext (h.redirect_perm (hp.filterMap _))
  have hb : published config input' sheet = published config input sheet := by
    rw [published, published, hr]
  have ha : (replacementOf config input' sheet).apply = (replacementOf config input sheet).apply :=
    funext (Replacement.apply_congr hb rfl hr)
  have hs : ∀ ms, resolve config ms sheet =
      ({ sheet with
          nodes := (replacementOf config ms sheet).apply (rewrite (statementsIn sheet.nodes)
            (published config ms sheet) (collect config sheet).imports sheet.nodes) },
        { messages := publish config (published config ms sheet)
          warnings := (collect config sheet).warnings }) := fun _ => rfl
  rw [hs, hs, ha, hb]

end StyleValues
