import Mathlib.Data.List.DropRight
import StyleValues.Proofs.Resolution.ExportBlock
import StyleValues.Proofs.Resolution.Texts
import StyleValues.Proofs.Substitution.Identifiers
import StyleValues.Proofs.Substitution.Tokens

/-!
# Scoped identifiers in a resolved sheet

A scoped identifier that stands by itself in a text is cut out by name
boundaries, and no substitution moves them as long as the token around it is
not bound. So what comes to stand in its place is what the redirects make of
the identifier alone. That is the value published for its name, if the value
as it was collected mentions no identifier that is redirected up to there.
-/

set_option autoImplicit false

namespace StyleValues

/-- The token that a part of a text stands in, given what is in front of it and behind it. -/
def tokenAround (a w b : Text) : Text := a.rtakeWhile isTokenChar ++ (w ++ b.takeWhile isTokenChar)

namespace Replacement

variable (r : Replacement) (isTarget : Bool)

/-- What a replacement makes of the text in front of an identifier. The token that runs on into
the identifier is redirected and not substituted. -/
def textBefore (a : Text) : Text :=
  r.text isTarget (a.rdropWhile isTokenChar) ++ redirect r.redirects (a.rtakeWhile isTokenChar)

def textBehind (b : Text) : Text :=
  redirect r.redirects (b.takeWhile isTokenChar) ++ r.text isTarget (b.dropWhile isTokenChar)

end Replacement

/-! ### Cuts that a substitution keeps -/

section
variable {lookup : Text → Option Text}

theorem any_getLast?_rdropWhile (q : Char → Bool) (a : Text) :
    (a.rdropWhile q).getLast?.any q = false := by
  rw [Option.any_eq_false]
  intro c hc
  have hne : a.rdropWhile q ≠ [] := by
    intro h
    rw [h] at hc
    cases hc
  have hl := List.rdropWhile_last_not q a hne
  rw [List.getLast?_eq_some_getLast hne, Option.some.injEq] at hc
  rw [hc] at hl
  simpa using hl

theorem any_head?_dropWhile (q : Char → Bool) (b : Text) : (b.dropWhile q).head?.any q = false := by
  have h := List.head?_dropWhile_not q b
  cases hd : (b.dropWhile q).head? with
  | none => rfl
  | some c =>
    rw [hd] at h
    simpa using h

theorem substitute_of_not_isTokenChar {c : Char} (hc : isTokenChar c = false) :
    substitute lookup [c] = [c] := by
  rw [substitute, substituteFrom, if_neg (by simp [hc])]
  rfl

theorem getLast?_substitute {a : Text} (h : a.getLast?.any isTokenChar = false) :
    (substitute lookup a).getLast? = a.getLast? := by
  rcases List.eq_nil_or_concat a with rfl | ⟨a, c, rfl⟩
  · rfl
  · have hc : isTokenChar c = false := by simpa using h
    have ha : substitute lookup (a.concat c) = substitute lookup a ++ [c] := by
      rw [List.concat_eq_append, substitute_append (Or.inr (by simpa using hc)),
        substitute_of_not_isTokenChar hc]
    rw [ha, List.concat_eq_append, List.getLast?_concat, List.getLast?_concat]

theorem head?_substitute {b : Text} (h : b.head?.any isTokenChar = false) :
    (substitute lookup b).head? = b.head? := by
  cases b with
  | nil => rfl
  | cons c b =>
    have hc : isTokenChar c = false := by simpa using h
    have hb : substitute lookup ([c] ++ b) = [c] ++ substitute lookup b := by
      rw [substitute_append (Or.inl (by simpa using hc)), substitute_of_not_isTokenChar hc]
    rw [List.singleton_append] at hb
    rw [hb]
    rfl

theorem isNameBoundary_of_any_isTokenChar {c : Option Char} (h : c.any isTokenChar = false) :
    isNameBoundary c := by
  cases c with
  | none => rfl
  | some c =>
    have hc : isTokenChar c = false := h
    have hn : ¬ isNameChar c := fun hn => by rw [isTokenChar_of_isNameChar hn] at hc; cases hc
    simpa [isNameBoundary] using hn

theorem isNameBoundary_of_suffix {a t : Text} (ht : t <:+ a) (h : isNameBoundary a.getLast?) :
    isNameBoundary t.getLast? := by
  obtain ⟨u, rfl⟩ := ht
  rw [List.getLast?_append] at h
  cases hc : t.getLast? with
  | none => rfl
  | some c => rwa [hc, Option.some_or] at h

theorem isNameBoundary_of_prefix {b t : Text} (ht : t <+: b) (h : isNameBoundary b.head?) :
    isNameBoundary t.head? := by
  obtain ⟨u, rfl⟩ := ht
  rw [List.head?_append] at h
  cases hc : t.head? with
  | none => rfl
  | some c => rwa [hc, Option.some_or] at h

end

namespace Replacement

variable {r : Replacement} {isTarget : Bool}

theorem text_append_of_cut (hr : r.redirects.AreNames) {a b : Text}
    (h : a.getLast?.any isTokenChar = false ∨ b.head?.any isTokenChar = false) :
    r.text isTarget (a ++ b) = r.text isTarget a ++ r.text isTarget b := by
  have hb : isNameBoundary a.getLast? ∨ isNameBoundary b.head? :=
    h.imp isNameBoundary_of_any_isTokenChar isNameBoundary_of_any_isTokenChar
  cases isTarget with
  | false => exact redirect_cut hr hb
  | true =>
    have hs : isNameBoundary (substitute r.bindings.value? a).getLast? ∨
        isNameBoundary (substitute r.bindings.value? b).head? := by
      refine h.imp (fun h => ?_) fun h => ?_
      · rw [getLast?_substitute h]
        exact isNameBoundary_of_any_isTokenChar h
      · rw [head?_substitute h]
        exact isNameBoundary_of_any_isTokenChar h
    have ha : ∀ s, r.text true s = redirect r.redirects (substitute r.bindings.value? s) :=
      fun _ => rfl
    rw [ha, ha, ha, substitute_append h, redirect_cut hr hs]

theorem text_token {t : Text} (hne : t ≠ []) (ht : ∀ c ∈ t, isTokenChar c)
    (hl : isTarget → r.bindings.value? t = none) : r.text isTarget t = redirect r.redirects t := by
  cases isTarget with
  | false => rfl
  | true =>
    have hs : r.bindings.resolve t = t := by
      rw [Bindings.resolve, substitute_token hne ht, hl rfl, Option.getD_none]
    rw [text, if_pos rfl, hs]

/-- What stands by itself between two name boundaries is redirected by itself, unless the token
around it is substituted. -/
theorem text_around (hr : r.redirects.AreNames) {a w b : Text} (hne : w ≠ [])
    (hw : ∀ c ∈ w, isNameChar c) (ha : isNameBoundary a.getLast?) (hb : isNameBoundary b.head?)
    (hl : isTarget → r.bindings.value? (tokenAround a w b) = none) :
    r.text isTarget (a ++ (w ++ b)) =
      r.textBefore isTarget a ++ (redirect r.redirects w ++ r.textBehind isTarget b) := by
  have hs : a ++ (w ++ b) =
      a.rdropWhile isTokenChar ++ (tokenAround a w b ++ b.dropWhile isTokenChar) := by
    have hsa : a.rdropWhile isTokenChar ++ a.rtakeWhile isTokenChar = a :=
      List.rdropWhile_append_rtakeWhile
    have hsb := List.takeWhile_append_dropWhile (p := isTokenChar) (l := b)
    conv => lhs; rw [← hsa, ← hsb]
    simp only [tokenAround, List.append_assoc]
  have hne : tokenAround a w b ≠ [] := by
    rw [tokenAround]
    exact List.append_ne_nil_of_right_ne_nil _ (List.append_ne_nil_of_left_ne_nil hne _)
  have ht : ∀ c ∈ tokenAround a w b, isTokenChar c := by
    rw [tokenAround, List.forall_mem_append, List.forall_mem_append]
    exact ⟨fun _ => List.mem_rtakeWhile_imp, fun c hc => isTokenChar_of_isNameChar (hw c hc),
      fun _ => List.mem_takeWhile_imp⟩
  have ha' := isNameBoundary_of_suffix (List.rtakeWhile_suffix isTokenChar a) ha
  have hb' := isNameBoundary_of_prefix (List.takeWhile_prefix (l := b) isTokenChar) hb
  rw [hs, text_append_of_cut hr (Or.inl (any_getLast?_rdropWhile isTokenChar a)),
    text_append_of_cut hr (Or.inr (any_head?_dropWhile isTokenChar b)), text_token hne ht hl, tokenAround,
    redirect_cut hr (Or.inl ha'), redirect_cut hr (Or.inr hb'), textBefore, textBehind]
  simp only [List.append_assoc]

end Replacement

/-! ### The value that is shown -/

theorem Bindings.value?_mapValues (f : Text → Text) (bs : Bindings) (name : Text) :
    (bs.mapValues f).value? name = (bs.value? name).map f := by
  rw [Bindings.value?, Bindings.value?, Bindings.find?, Bindings.find?, Bindings.mapValues,
    List.find?_map, Option.map_map, Option.map_map]
  rfl

theorem entry_mem_of_value? {bs : Bindings} {name value : Text} (h : bs.value? name = some value) :
    (name, value) ∈ bs.entries.map Binding.entry := by
  obtain ⟨b, hb, rfl⟩ := Option.map_eq_some_iff.mp h
  have hn : b.name = name := by simpa using List.find?_some hb
  exact List.mem_map.mpr ⟨b, List.mem_of_find?_eq_some hb, by rw [← hn]; rfl⟩

theorem redirectsOf_append (bs : Bindings) (ms ns : List Message) :
    redirectsOf bs (ms ++ ns) = redirectsOf bs ms ++ redirectsOf bs ns :=
  List.filterMap_append

section
variable {bs : Bindings} {name identifier value : Text}

theorem redirectsOf_scopedName (hv : bs.value? name = some value) (ms : List Message) :
    redirectsOf bs (.scopedName name identifier :: ms) = (identifier, value) :: redirectsOf bs ms :=
  List.filterMap_cons_some (by rw [redirectOf?, hv]; rfl)

theorem not_mem_redirectsOf {ms : List Message}
    (h : ∀ other, Message.scopedName other identifier ∉ ms) :
    identifier ∉ (redirectsOf bs ms).map Prod.fst := by
  intro hm
  obtain ⟨e, he, rfl⟩ := List.mem_map.mp hm
  obtain ⟨m, hmem, hr⟩ := List.mem_filterMap.mp he
  cases m with
  | boundName plugin name value => cases hr
  | scopedName other value =>
    obtain ⟨target, -, rfl⟩ := Option.map_eq_some_iff.mp hr
    exact h other hmem

end

theorem value?_published {config : Config} (input : List Message) {sheet : Stylesheet}
    {name value : Text} (hv : (collect config sheet).bindings.value? name = some value) :
    (published config input sheet).value? name =
      some (redirect (redirectsOf (collect config sheet).bindings input) value) := by
  rw [published, Bindings.value?_mapValues, hv, Option.map_some]

section
variable (config : Config) {input : List Message} (sheet : Stylesheet)

/-- Where a scoped identifier stands by itself in a sheet, the resolved sheet has the value that is
published for its name, and the export block has it too. A place where names are substituted must
have no bound token around the identifier. A text that is the name alone becomes the value as well,
if the value is a text that the redirects leave as it is. -/
theorem scoped_of_resolve {before after : List Message} {name identifier value : Text}
    (hin : input = before ++ .scopedName name identifier :: after)
    (hv : (collect config sheet).bindings.value? name = some value) (hne : identifier ≠ [])
    (hr : (redirectsOf (collect config sheet).bindings input).AreNames)
    (hb : ∀ other, Message.scopedName other identifier ∉ before)
    (hm : ∀ e ∈ redirectsOf (collect config sheet).bindings (before ++ [.scopedName name identifier]),
      e.1 ∉ identifiersIn value) :
    ∃ shown, (name, shown) ∈ (resolve config input sheet).2.entries ∧
      (∃ i block, findExport? (rewriteOf config input sheet) = some i ∧
        (resolve config input sheet).1.nodes[i]? = some block ∧
          block.entries.lookup name = some shown) ∧
      ((openTexts (prune valueKeyword sheet.nodes)).map (replacementOf config input sheet).spot).Sublist
        (textsIn (resolve config input sheet).1.nodes) ∧
      (∀ (isTarget : Bool) (a b : Text), isNameBoundary a.getLast? → isNameBoundary b.head? →
        (isTarget → (published config input sheet).value? (tokenAround a identifier b) = none) →
          (replacementOf config input sheet).text isTarget (a ++ (identifier ++ b)) =
            (replacementOf config input sheet).textBefore isTarget a ++
              (shown ++ (replacementOf config input sheet).textBehind isTarget b)) ∧
      (tokensIn name = [name] →
        (∀ e ∈ redirectsOf (collect config sheet).bindings input, e.1 ∉ identifiersIn shown) →
          (replacementOf config input sheet).text true name = shown) := by
  have hs : redirectsOf (collect config sheet).bindings input =
      redirectsOf (collect config sheet).bindings before ++
        (identifier, value) :: redirectsOf (collect config sheet).bindings after := by
    rw [hin, redirectsOf_append, redirectsOf_scopedName hv]
  have hw : ∀ c ∈ identifier, isNameChar c := by
    rw [hs] at hr
    exact hr (identifier, value) (by simp)
  have hp := value?_published input hv
  have hx : redirect (redirectsOf (collect config sheet).bindings input) identifier =
      redirect (redirectsOf (collect config sheet).bindings input) value := by
    -- A redirect has the value as it was collected, so only the later redirects change it.
    rw [redirectsOf_append, redirectsOf_scopedName hv] at hm
    rw [hs] at hr ⊢
    exact redirect_scoped hr hne (not_mem_redirectsOf hb) hm
  have he : (name, redirect (redirectsOf (collect config sheet).bindings input) value) ∈
      (resolve config input sheet).2.entries := by
    rw [entries_resolve]
    exact entry_mem_of_value? hp
  refine ⟨_, he, lookup_export_resolve he, (texts_of_resolve config input sheet).1, ?_, ?_⟩
  · intro isTarget a b ha hb hl
    rw [← hx]
    exact Replacement.text_around (r := replacementOf config input sheet) hr hne hw ha hb hl
  · intro ht hi
    have htoken : name ∈ tokensIn name := by
      rw [ht]
      exact List.mem_singleton_self name
    obtain ⟨hn, hc⟩ := mem_tokensIn htoken
    have hsub : (published config input sheet).resolve name =
        redirect (redirectsOf (collect config sheet).bindings input) value := by
      rw [Bindings.resolve, substitute_token hn hc, hp, Option.getD_some]
    have htext : (replacementOf config input sheet).text true name =
        redirect (redirectsOf (collect config sheet).bindings input)
          ((published config input sheet).resolve name) := rfl
    rw [htext, hsub]
    exact redirect_of_not_mem hr hi

end

/-! ### Two values and a rule -/

/-- The sheet `@value first;@value second;selector{c:text}`. -/
def pairSheet (first second selector text : Text) : Stylesheet where
  nodes := [
    .leaf (.atRule valueKeyword first) { afterName := [' '], semicolon := true },
    .leaf (.atRule valueKeyword second) { afterName := [' '], semicolon := true },
    .block (.rule selector) [.leaf (.declaration ['c'] text) { between := [':'] }] {}]

def pairResult (e e' : Text × Text) (selector text : Text) : Stylesheet where
  nodes := [
    .block (.rule exportSelector) [newEntry none e.1 e.2, newEntry none e'.1 e'.2]
      { between := [' '], after := ['\n'] },
    .block (.rule selector) [.leaf (.declaration ['c'] text) { between := [':'] }] {}]

theorem process_of_value (p : Progress) {s : Statement} {name value : Text}
    (h : Definition.read s.params = .ok (.value name value)) :
    p.process s = p.define s ⟨name, p.bindings.resolve value, .document⟩ := by
  rw [Progress.process, h]

def pairStatement (i : Nat) (params : Text) : Statement where
  path := [i]
  params := params
  source := (Node.leaf (.atRule valueKeyword params) { afterName := [' '], semicolon := true }).print.trim

theorem collect_pairSheet {first second name value name' value' : Text}
    (h : Definition.read first = .ok (.value name value))
    (h' : Definition.read second = .ok (.value name' value')) (selector text : Text) :
    collect {} (pairSheet first second selector text) =
      ((Progress.start ({} : Config).stem (pairSheet first second selector text).nodes).define
        (pairStatement 0 first) ⟨name, Bindings.resolve {} value, .document⟩).define
          (pairStatement 1 second) ⟨name', (Bindings.define {}
            ⟨name, Bindings.resolve {} value, .document⟩).resolve value', .document⟩ := by
  have hs : statementsIn (pairSheet first second selector text).nodes =
      [pairStatement 0 first, pairStatement 1 second] := rfl
  rw [collect, hs, Progress.processAll, List.foldl_cons, List.foldl_cons, List.foldl_nil,
    process_of_value _ (s := pairStatement 0 first) h,
    process_of_value _ (s := pairStatement 1 second) h']
  rfl

/-- Two names, of which the first has what is to be redirected for the second as its value. -/
def chainedSheet : Stylesheet := pairSheet "n: t".toList "m: x".toList ['.', 's'] ['n']

def chainedInput : List Message := [.scopedName ['n'] ['s'], .scopedName ['m'] ['t']]

theorem scoped_of_resolve_chained :
    parse "@value n: t;@value m: x;.s{c:n}".toList = .ok chainedSheet ∧
      (['n'], ['x']) ∈ (resolve {} chainedInput chainedSheet).2.entries ∧
      (replacementOf {} chainedInput chainedSheet).text true ['.', 's'] = ['.', 'x'] ∧
      (replacementOf {} chainedInput chainedSheet).text true ['n'] = ['x'] := by
  have hn : Definition.read "n: t".toList = .ok (.value ['n'] ['t']) :=
    (read_eq_readValue (by cbv) (by cbv)).trans (by cbv)
  have hm : Definition.read "m: x".toList = .ok (.value ['m'] ['x']) :=
    (read_eq_readValue (by cbv) (by cbv)).trans (by cbv)
  have hc := collect_pairSheet hn hm ['.', 's'] ['n']
  rw [← chainedSheet] at hc
  have hv : (collect {} chainedSheet).bindings.value? ['n'] = some ['t'] := by
    rw [hc]
    rfl
  have hr : redirectsOf (collect {} chainedSheet).bindings chainedInput =
      [(['s'], ['t']), (['t'], ['x'])] := by
    rw [hc]
    rfl
  have he : (resolve {} chainedInput chainedSheet).2.entries =
      [(['n'], ['x']), (['m'], ['x'])] := by
    rw [resolve, published, hc]
    rfl
  have hnames : (redirectsOf (collect {} chainedSheet).bindings chainedInput).AreNames := by
    rw [hr]
    simp only [Redirects.AreNames, List.forall_mem_cons]
    exact ⟨⟨rfl, List.forall_mem_nil _⟩, ⟨rfl, List.forall_mem_nil _⟩, List.forall_mem_nil _⟩
  have hfirst : ∀ e ∈ redirectsOf (collect {} chainedSheet).bindings [.scopedName ['n'] ['s']],
      e.1 ∉ identifiersIn ['t'] := by
    have h : redirectsOf (collect {} chainedSheet).bindings [.scopedName ['n'] ['s']] =
        [(['s'], ['t'])] := redirectsOf_scopedName hv []
    rw [h]
    decide
  obtain ⟨shown, hs, -, -, hplace, hname⟩ := @scoped_of_resolve {} chainedInput chainedSheet []
    [.scopedName ['m'] ['t']] ['n'] ['s'] ['t'] rfl hv (List.cons_ne_nil _ _) hnames
    (fun _ => List.not_mem_nil) hfirst
  obtain rfl : shown = ['x'] := by
    rw [he] at hs
    simpa using hs
  have hfree : (published {} chainedInput chainedSheet).value? ['.', 's'] = none := by
    rw [published, hc]
    rfl
  have ht : (replacementOf {} chainedInput chainedSheet).text true ['.', 's'] = ['.', 'x'] := by
    refine (hplace true ['.'] [] rfl rfl fun _ => hfree).trans ?_
    rw [replacementOf, published, hc]
    rfl
  exact ⟨by cbv, hs, ht, hname rfl (by rw [hr]; decide)⟩

/-- Whether a text is resolved to a sheet with two entries and a rule. -/
def ResolvesTo (source : Text) (input : List Message) (e e' : Text × Text) (selector text : Text) :
    Prop :=
  ∃ sheet, parse source = .ok sheet ∧
    (resolve {} input sheet).1 = pairResult e e' selector text ∧
      (resolve {} input sheet).2.entries = [e, e']

/-- An identifier is not seen if it stands in a bound token or if a message in front is about more
than an identifier, and a name that is no token is not seen at all. If the value of a name has the
identifier of a message in front, then only the export block gets what that message says. -/
theorem identifier_not_shown :
    ResolvesTo "@value n: x;@value .s: y;.s{c:d}".toList [.scopedName ['n'] ['s']]
        (['n'], ['x']) (['.', 's'], ['y']) ['y'] ['d'] ∧
      ResolvesTo "@value n: x;@value m: y;.s{c:d}".toList
        [.scopedName ['m'] ['.', 's'], .scopedName ['n'] ['s']]
        (['n'], ['x']) (['m'], ['y']) ['y'] ['d'] ∧
      ResolvesTo "@value n: x;@value @m: y;a{c:@m}".toList [.scopedName ['@', 'm'] ['s']]
        (['n'], ['x']) (['@', 'm'], ['y']) ['a'] ['@', 'm'] ∧
      ResolvesTo "@value n: t;@value m: x;a{c:s}".toList
        [.scopedName ['m'] ['t'], .scopedName ['n'] ['s']]
        (['n'], ['x']) (['m'], ['x']) ['a'] ['t'] := by
  have hn : Definition.read "n: x".toList = .ok (.value ['n'] ['x']) :=
    (read_eq_readValue (by cbv) (by cbv)).trans (by cbv)
  have hs : Definition.read ".s: y".toList = .ok (.value ['.', 's'] ['y']) :=
    (read_eq_readValue (by cbv) (by cbv)).trans (by cbv)
  have hm : Definition.read "m: y".toList = .ok (.value ['m'] ['y']) :=
    (read_eq_readValue (by cbv) (by cbv)).trans (by cbv)
  have ha : Definition.read "@m: y".toList = .ok (.value ['@', 'm'] ['y']) :=
    (read_eq_readValue (by cbv) (by cbv)).trans (by cbv)
  have hn' : Definition.read "n: t".toList = .ok (.value ['n'] ['t']) :=
    (read_eq_readValue (by cbv) (by cbv)).trans (by cbv)
  have hm' : Definition.read "m: x".toList = .ok (.value ['m'] ['x']) :=
    (read_eq_readValue (by cbv) (by cbv)).trans (by cbv)
  refine ⟨⟨pairSheet "n: x".toList ".s: y".toList ['.', 's'] ['d'], by cbv, ?_⟩,
    ⟨pairSheet "n: x".toList "m: y".toList ['.', 's'] ['d'], by cbv, ?_⟩,
    ⟨pairSheet "n: x".toList "@m: y".toList ['a'] ['@', 'm'], by cbv, ?_⟩,
    ⟨pairSheet "n: t".toList "m: x".toList ['a'] ['s'], by cbv, ?_⟩⟩
  · rw [resolve, published, collect_pairSheet hn hs]
    exact ⟨rfl, rfl⟩
  · rw [resolve, published, collect_pairSheet hn hm]
    exact ⟨rfl, rfl⟩
  · rw [resolve, published, collect_pairSheet hn ha]
    exact ⟨rfl, rfl⟩
  · rw [resolve, published, collect_pairSheet hn' hm']
    exact ⟨rfl, rfl⟩

end StyleValues
