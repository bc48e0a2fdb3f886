import StyleValues.Proofs.Resolution.Definitions
import StyleValues.Proofs.Resolution.ImportBlocks
import StyleValues.Proofs.Resolution.Texts
import StyleValues.Proofs.Substitution.Tokens

/-!
# Complete expansion

A value is substituted once, with the names bound in front of it, and never
looked at again. If every defined name that a value mentions is defined in
front of it, that is enough: by the order of the definitions no value that is
bound mentions a defined name, and then no text that was substituted does.
-/

set_option autoImplicit false

namespace StyleValues

def definitionsIn (stem : Text) (nodes : List Node) : List Defined :=
  definitionsFrom (Imports.ofNodes stem nodes).allocator (statementsIn nodes)

def FreeOf (names : List Text) (s : Text) : Prop := ∀ t ∈ tokensIn s, t ∉ names

/-- Whether every defined name that a written value mentions is defined in front of it. -/
def Ordered (ds : List Defined) : Prop :=
  ∀ earlier d later, ds = earlier ++ d :: later → d.origin = .document →
    ∀ t ∈ tokensIn d.text, t ∈ ds.map Defined.name → t ∈ earlier.map Defined.name

section
variable {names : List Text} {lookup : Text → Option Text}

/-- If all names have values that mention none of them, then none is left after a substitution. -/
theorem freeOf_substitute {s : Text} (hv : ∀ t value, lookup t = some value → FreeOf names value)
    (hs : ∀ t ∈ tokensIn s, t ∈ names → (lookup t).isSome) : FreeOf names (substitute lookup s) := by
  intro t ht
  rw [tokensIn_substitute, List.mem_flatMap] at ht
  obtain ⟨u, hu, ht⟩ := ht
  cases hl : lookup u with
  | some value =>
    rw [hl] at ht
    exact hv u value hl t ht
  | none =>
    rw [hl] at ht
    obtain rfl := List.mem_singleton.mp ht
    intro hn
    have hi := hs t hu hn
    rw [hl] at hi
    cases hi

theorem freeOf_binding {d : Defined} (hv : ∀ t value, lookup t = some value → FreeOf names value)
    (hs : d.origin = .document → ∀ t ∈ tokensIn d.text, t ∈ names → (lookup t).isSome)
    (hp : ∀ placeholder, d.placeholder? = some placeholder → FreeOf names placeholder) :
    FreeOf names (d.binding lookup).value := by
  rw [Defined.binding]
  rw [Defined.placeholder?] at hp
  cases ho : d.origin with
  | document => exact freeOf_substitute hv (hs ho)
  | imported path =>
    rw [ho] at hp
    exact hp d.text rfl

end

theorem isSome_meaning? (ds : List Defined) (name : Text) :
    (meaning? ds name).isSome ↔ name ∈ ds.map Defined.name := by
  induction ds with
  | nil => exact iff_of_false Bool.false_ne_true List.not_mem_nil
  | cons d ds ih =>
    rw [meaning?, List.map_cons, List.mem_cons, ← ih]
    by_cases h : d.name = name
    · simp [h]
    · have h' : ¬ name = d.name := fun e => h e.symm
      simp [h, h']

/-- Nothing that some ordered definitions bind mentions a defined name, not even a later one. -/
theorem freeOf_meaning {ds : List Defined} (ho : Ordered ds)
    (hp : ∀ placeholder ∈ ds.filterMap Defined.placeholder?, FreeOf (ds.map Defined.name) placeholder)
    {earlier later : List Defined} (hd : ds = earlier ++ later) {name : Text} {b : Binding}
    (hb : meaning? earlier.reverse name = some b) : FreeOf (ds.map Defined.name) b.value := by
  induction earlier using List.reverseRecOn generalizing later name b with
  | nil => cases hb
  | append_singleton earlier d ih =>
    rw [List.append_assoc, List.singleton_append] at hd
    rw [List.reverse_append, List.reverse_singleton, List.singleton_append, meaning?] at hb
    split at hb
    · cases hb
      apply freeOf_binding
      · intro t value ht
        obtain ⟨c, hc, rfl⟩ := Option.map_eq_some_iff.mp ht
        exact ih hd hc
      · intro hl t ht hm
        have he := ho earlier d later hd hl t ht hm
        rwa [Option.isSome_map, isSome_meaning?, List.map_reverse, List.mem_reverse]
      · intro placeholder hl
        have hm : d ∈ ds := by rw [hd]; simp
        exact hp placeholder (List.mem_filterMap.mpr ⟨d, hm, hl⟩)
    · exact ih hd hb

/-! ### The bindings of a run -/

theorem Bindings.find?_of_mem {bs : Bindings} {b : Binding} (h : b ∈ bs.entries) :
    bs.find? b.name = some b := by
  have hu : ∀ entries : List Binding, (entries.map Binding.name).Nodup → b ∈ entries →
      entries.find? (fun c => c.name == b.name) = some b := by
    intro entries hn hb
    induction entries with
    | nil => cases hb
    | cons a rest ih =>
      rw [List.map_cons, List.nodup_cons] at hn
      rcases List.mem_cons.mp hb with rfl | hb
      · exact List.find?_cons_of_pos (beq_self_eq_true _)
      · have ha : a.name ≠ b.name := fun e => hn.1 (List.mem_map.mpr ⟨b, hb, e.symm⟩)
        rw [List.find?_cons_of_neg (by simpa using ha)]
        exact ih hn.2 hb
  exact hu bs.entries bs.names_nodup h

section
variable (config : Config) (sheet : Stylesheet)

theorem bindings_collect :
    (collect config sheet).bindings =
      Bindings.defineAll {} (definitionsIn config.stem sheet.nodes) :=
  bindings_processAll (Progress.start config.stem sheet.nodes) (statementsIn sheet.nodes)

theorem placeholders_definitionsIn (stem : Text) (nodes : List Node) :
    (definitionsIn stem nodes).filterMap Defined.placeholder? =
      (allottedIn stem nodes).map Prod.snd :=
  placeholders_definitionsFrom _ _

theorem names_published (input : List Message) :
    (published config input sheet).entries.map Binding.name =
      ((definitionsIn config.stem sheet.nodes).map Defined.name).eraseDups := by
  rw [← names_defineAll, ← bindings_collect, published, Bindings.mapValues, List.map_map]
  rfl

variable {config sheet}

theorem freeOf_collect (ho : Ordered (definitionsIn config.stem sheet.nodes))
    (hp : ∀ a ∈ allottedIn config.stem sheet.nodes,
      FreeOf ((definitionsIn config.stem sheet.nodes).map Defined.name) a.2)
    {b : Binding} (hb : b ∈ (collect config sheet).bindings.entries) :
    FreeOf ((definitionsIn config.stem sheet.nodes).map Defined.name) b.value := by
  have hm := Bindings.find?_of_mem hb
  rw [bindings_collect, find?_defineAll] at hm
  refine freeOf_meaning ho ?_ (List.append_nil _).symm hm
  intro placeholder hl
  rw [placeholders_definitionsIn] at hl
  obtain ⟨a, ha, rfl⟩ := List.mem_map.mp hl
  exact hp a ha

/-! ### Without scoped messages -/

theorem redirectsOf_of_no_scopedName {input : List Message}
    (hm : ∀ name value, Message.scopedName name value ∉ input) (bs : Bindings) :
    redirectsOf bs input = [] := by
  rw [redirectsOf, List.filterMap_eq_nil_iff]
  intro m hi
  cases m with
  | scopedName name value => exact absurd hi (hm name value)
  | boundName plugin name value => rfl

theorem published_of_no_scopedName {input : List Message}
    (hm : ∀ name value, Message.scopedName name value ∉ input) :
    (published config input sheet).entries = (collect config sheet).bindings.entries := by
  rw [published, redirectsOf_of_no_scopedName hm, Bindings.mapValues]
  exact List.map_id _

theorem freeOf_text {input : List Message} (hm : ∀ name value, Message.scopedName name value ∉ input)
    (ho : Ordered (definitionsIn config.stem sheet.nodes))
    (hp : ∀ a ∈ allottedIn config.stem sheet.nodes,
      FreeOf ((definitionsIn config.stem sheet.nodes).map Defined.name) a.2) (s : Text) :
    FreeOf ((definitionsIn config.stem sheet.nodes).map Defined.name)
      ((replacementOf config input sheet).text true s) := by
  have hr : (replacementOf config input sheet).text true s =
      substitute (published config input sheet).value? s := by
    rw [Replacement.text, replacementOf, redirectsOf_of_no_scopedName hm]
    rfl
  have hv : (published config input sheet).value? = (collect config sheet).bindings.value? := by
    funext name
    rw [Bindings.value?, Bindings.value?, Bindings.find?, Bindings.find?, published_of_no_scopedName hm]
  rw [hr, hv]
  apply freeOf_substitute
  · intro t value ht
    obtain ⟨b, hb, rfl⟩ := Option.map_eq_some_iff.mp ht
    exact freeOf_collect ho hp (List.mem_of_find?_eq_some hb)
  · intro t _ ht
    rw [Bindings.value?, Option.isSome_map, bindings_collect, find?_defineAll, isSome_meaning?,
      List.map_reverse, List.mem_reverse]
    exact ht

/-- If every defined name is defined in front of the values that mention it, no defined name is
left: neither in a message nor in a text, outside the exchange blocks, where names are substituted.
The texts meant are those that the run leaves outside such blocks, and those that were outside such
blocks before it. -/
theorem expanded_of_resolve {input : List Message}
    (hm : ∀ name value, Message.scopedName name value ∉ input)
    (ho : Ordered (definitionsIn config.stem sheet.nodes))
    (hp : ∀ a ∈ allottedIn config.stem sheet.nodes,
      FreeOf ((definitionsIn config.stem sheet.nodes).map Defined.name) a.2) :
    (resolve config input sheet).2.entries.map Prod.fst =
        ((definitionsIn config.stem sheet.nodes).map Defined.name).eraseDups ∧
      (∀ e ∈ (resolve config input sheet).2.entries,
        FreeOf ((definitionsIn config.stem sheet.nodes).map Defined.name) e.2) ∧
      (∀ e ∈ openTexts (resolve config input sheet).1.nodes, e.1.isTarget config →
        FreeOf ((definitionsIn config.stem sheet.nodes).map Defined.name) e.2) ∧
      ∃ changed : List (Spot × Text),
        (changed.map Prod.fst = (openTexts (prune valueKeyword sheet.nodes)).map Prod.fst ∧
          changed.Sublist (textsIn (resolve config input sheet).1.nodes)) ∧
        ∀ e ∈ changed, e.1.isTarget config →
          FreeOf ((definitionsIn config.stem sheet.nodes).map Defined.name) e.2 := by
  obtain ⟨hin, hout⟩ := texts_of_resolve config input sheet
  have ht : ∀ e ∈ (openTexts (prune valueKeyword sheet.nodes)).map
      (replacementOf config input sheet).spot, e.1.isTarget config →
        FreeOf ((definitionsIn config.stem sheet.nodes).map Defined.name) e.2 := by
    intro e he hx
    obtain ⟨f, -, rfl⟩ := List.mem_map.mp he
    have hs : ((replacementOf config input sheet).spot f).2 =
        (replacementOf config input sheet).text true f.2 := congrArg (fun b =>
          (replacementOf config input sheet).text b f.2) hx
    rw [hs]
    exact freeOf_text hm ho hp f.2
  refine ⟨?_, ?_, ?_, (openTexts (prune valueKeyword sheet.nodes)).map
    (replacementOf config input sheet).spot, ⟨?_, hin⟩, ht⟩
  · rw [entries_resolve, map_fst_entry, names_published]
  · intro e he
    rw [entries_resolve, published_of_no_scopedName hm] at he
    obtain ⟨b, hb, rfl⟩ := List.mem_map.mp he
    exact freeOf_collect ho hp hb
  · exact fun e he => ht e (hout.mem he)
  · rw [List.map_map]
    rfl

end

/-! ### An imported name in a chain -/

/-- The sheet `@value a from 'p';@value b: a x;c{d:calc(b)}`. -/
def chainSheet : Stylesheet where
  nodes := [
    .leaf (.atRule valueKeyword "a from 'p'".toList) { afterName := [' '], semicolon := true },
    .leaf (.atRule valueKeyword "b: a x".toList) { afterName := [' '], semicolon := true },
    .block (.rule ['c'])
      [.leaf (.declaration ['d'] "calc(b)".toList) { between := [':'] }] {}]

theorem parse_chainSheet :
    parse "@value a from 'p';@value b: a x;c{d:calc(b)}".toList = .ok chainSheet := by cbv

theorem read_chainSheet :
    Definition.read "a from 'p'".toList = .ok (.imports ['p'] [⟨['a'], ['a']⟩]) ∧
      Definition.read "b: a x".toList = .ok (.value ['b'] "a x".toList) := by
  constructor
  · have hf : (tokenize? "a from 'p'".toList).bind (splitAtLast? (Token.isWord "from".toList)) =
        some ([.word ['a'], .space [' ']], [.space [' '], .quoted '\'' ['p']]) := by cbv
    rw [read_eq_readImports (by cbv) hf]
    cbv
  · rw [read_eq_readValue (by cbv) (by cbv)]
    cbv

theorem statementsIn_chainSheet : statementsIn chainSheet.nodes = [
    ⟨[0], "a from 'p'".toList, "@value a from 'p';".toList⟩,
    ⟨[1], "b: a x".toList, "@value b: a x;".toList⟩] := by cbv

theorem allot_chainSheet :
    allot (Imports.ofNodes ({} : Config).stem chainSheet.nodes).allocator [⟨['p'], ['a'], ['a'], 0⟩] =
      [(⟨['p'], ['a'], ['a'], 0⟩, "__value__a__0".toList)] := by
  have ha : (Imports.ofNodes ({} : Config).stem chainSheet.nodes).allocator =
      { stem := ({} : Config).stem } := rfl
  rw [ha, allot, Allocator.allocate, Allocator.number, firstFree, if_neg List.not_mem_nil]
  cbv

theorem allottedIn_chainSheet : allottedIn ({} : Config).stem chainSheet.nodes =
    [(⟨['p'], ['a'], ['a'], 0⟩, "__value__a__0".toList)] := by
  have hu : usesIn chainSheet.nodes = [⟨['p'], ['a'], ['a'], 0⟩] := by
    rw [usesIn, statementsIn_chainSheet]
    simp only [List.flatMap_cons, List.flatMap_nil, Statement.uses, read_chainSheet.1,
      read_chainSheet.2]
    rfl
  rw [allottedIn, hu, allot_chainSheet]

theorem definitionsIn_chainSheet : definitionsIn ({} : Config).stem chainSheet.nodes = [
    ⟨['a'], .imported ['p'], "__value__a__0".toList⟩, ⟨['b'], .document, "a x".toList⟩] := by
  rw [definitionsIn, statementsIn_chainSheet]
  simp only [definitionsFrom, Statement.definitions, Statement.uses, read_chainSheet.1,
    read_chainSheet.2]
  change (allot _ [⟨['p'], ['a'], ['a'], 0⟩]).map Defined.ofUse ++ _ = _
  rw [allot_chainSheet]
  rfl

theorem expanded_of_resolve_chain :
    parse "@value a from 'p';@value b: a x;c{d:calc(b)}".toList = .ok chainSheet ∧
      (resolve {} [] chainSheet).2.entries.map Prod.fst = [['a'], ['b']] ∧
      (∀ e ∈ (resolve {} [] chainSheet).2.entries, FreeOf [['a'], ['b']] e.2) ∧
      ∀ e ∈ openTexts (resolve {} [] chainSheet).1.nodes, e.1.isTarget {} →
        FreeOf [['a'], ['b']] e.2 := by
  have ho : Ordered (definitionsIn ({} : Config).stem chainSheet.nodes) := by
    rw [definitionsIn_chainSheet]
    rintro (_ | ⟨e, _ | ⟨f, earlier⟩⟩) d later hd hl
    · cases hd
      cases hl
    · cases hd
      decide
    · cases earlier <;> cases hd
  have hp : ∀ a ∈ allottedIn ({} : Config).stem chainSheet.nodes,
      FreeOf ((definitionsIn ({} : Config).stem chainSheet.nodes).map Defined.name) a.2 := by
    rw [allottedIn_chainSheet, definitionsIn_chainSheet]
    unfold FreeOf
    decide
  obtain ⟨hn, he, ht, -⟩ := @expanded_of_resolve {} chainSheet [] (fun _ _ => List.not_mem_nil) ho hp
  rw [definitionsIn_chainSheet] at hn he ht
  exact ⟨parse_chainSheet, hn, he, ht⟩

end StyleValues
