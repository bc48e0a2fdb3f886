import StyleValues.Proofs.Definition.ImportGrammar
import StyleValues.Proofs.Interchange.Extension
import StyleValues.Proofs.Interchange.Merging
import StyleValues.Proofs.Interchange.PlainEntries
import StyleValues.Proofs.Interchange.Selectors
import StyleValues.Proofs.Sheet.Composition
import StyleValues.Proofs.Sheet.Passing

/-!
# New import rules read back

The rule that is made for a path puts it between double quotes if it has an
apostrophe, and between apostrophes if not. An apostrophe may have been written
behind a backslash and a double quote without one; then the selector may end
inside the path, and the printed rule is read as another one or not at all. In
all other cases it is read as the rule that it is.
-/

set_option autoImplicit false

namespace StyleValues

open Text

def usesOf (path : Text) (anchor : Nat) (names : List ImportedName) : List ImportUse :=
  names.map fun n => ⟨path, n.source, n.name, anchor⟩

def registered (stem : Text) (us : List ImportUse) : List (Text × Text) :=
  (allot (Imports.ofNodes stem []).allocator us).map fun a => (a.2, a.1.source)

/-! ### One rule -/

section
variable {stem path : Text} {anchor : Nat} {names : List ImportedName}

theorem path_of_mem_usesOf {u : ImportUse} (h : u ∈ usesOf path anchor names) : u.path = path := by
  obtain ⟨n, -, rfl⟩ := List.mem_map.mp h
  rfl

theorem firstUses_of_path {u : ImportUse} {us : List ImportUse} (h : ∀ v ∈ us, v.path = u.path) :
    firstUses (u :: us) = [u] := by
  have hf : (firstUses us).filter (fun v => v.path != u.path) = [] := by
    rw [List.filter_eq_nil_iff]
    intro v hv
    simp [h v ((firstUses_sublist us).subset hv)]
  rw [firstUses, hf]

theorem entriesFor_of_path {a : Allocator} {us : List ImportUse} (h : ∀ u ∈ us, u.path = path) :
    (entriesFor path (allot a us)).map (fun e => (e.placeholder, e.source)) =
      (allot a us).map fun a => (a.2, a.1.source) := by
  have hf : (allot a us).filter (fun a => a.1.path == path) = allot a us := by
    rw [List.filter_eq_self]
    intro p hp
    have hu : p.1 ∈ us := by
      rw [← map_fst_allot a us]
      exact List.mem_map_of_mem hp
    simp [h p.1 hu]
  rw [entriesFor, hf, List.map_map]
  rfl

def importRuleOf (path : Text) (entries : List (Text × Text)) : Node :=
  .rule (importSelector path) (entries.map fun e => .declaration e.1 e.2)

theorem ImportBlock.rule_eq (b : ImportBlock) : b.rule = importRuleOf b.path b.declarations := by
  have hi : lastIndent? [] = none := rfl
  rw [ImportBlock.rule, Node.rule, Node.addEntries, extendedRule, List.nil_append, hi,
    terminateAll_newEntries]
  rfl

theorem newRules_of_path (hn : names ≠ []) :
    ((Imports.ofNodes stem []).registerAll (usesOf path anchor names)).newRules =
      [(anchor, importRuleOf path (registered stem (usesOf path anchor names)))] := by
  obtain ⟨n, names, rfl⟩ := List.exists_cons_of_ne_nil hn
  have hf : firstUses (usesOf path anchor (n :: names)) = [⟨path, n.source, n.name, anchor⟩] :=
    firstUses_of_path fun v hv => path_of_mem_usesOf hv
  have hd := entriesFor_of_path (a := (Imports.ofNodes stem []).allocator)
    (fun u hu => path_of_mem_usesOf hu : ∀ u ∈ usesOf path anchor (n :: names), u.path = path)
  rw [Imports.newRules, Imports.newBlocks, Imports.blocks_registerAll rfl, hf, List.map_singleton,
    List.filter_singleton]
  have he : ((Imports.ofNodes stem []).blockFor (usesOf path anchor (n :: names))
      ⟨path, n.source, n.name, anchor⟩).existing = none := rfl
  rw [he, Option.isNone_none, cond_true, List.map_singleton, ImportBlock.rule_eq,
    Imports.declarations_blockFor, hd]
  rfl

end

/-! ### Placeholders -/

theorem isNameChar_of_isDigit {c : Char} (h : c.isDigit) : isNameChar c := by
  have hlt : c.toNat < 0x80 := by
    simp only [Char.isDigit, Bool.and_eq_true, decide_eq_true_eq, UInt32.le_iff_toNat_le] at h
    exact lt_of_le_of_lt h.2 (by decide)
  simp [isNameChar, isAlphanumeric, hlt, Char.isAlphanum, h]

theorem Identifier.placeholder {a : Allocator} {name : Text} (hs : ∀ c ∈ a.stem, isNameChar c)
    (hn : ∀ c ∈ name, isNameChar c) (n : Nat) : Identifier (a.placeholder name n) := by
  have hd : ∀ c ∈ decimal n, isNameChar c := by
    intro c hc
    exact isNameChar_of_isDigit (Nat.isDigit_of_mem_toDigits (by decide) (le_refl 10) hc)
  refine ⟨by simp [Allocator.placeholder], ?_⟩
  simp only [Allocator.placeholder, List.forall_mem_append, List.forall_mem_cons]
  exact ⟨hs, hn, rfl, rfl, hd⟩

theorem identifiers_of_allot {a : Allocator} {us : List ImportUse} (hs : ∀ c ∈ a.stem, isNameChar c)
    (hu : ∀ u ∈ us, Identifier u.source ∧ ∀ c ∈ u.name, isNameChar c) :
    ∀ e ∈ (allot a us).map (fun a => (a.2, a.1.source)), Identifier e.1 ∧ Identifier e.2 := by
  induction us generalizing a with
  | nil => exact List.forall_mem_nil _
  | cons u us ih =>
    obtain ⟨hu, hr⟩ := List.forall_mem_cons.mp hu
    exact List.forall_mem_cons.mpr ⟨⟨.placeholder hs hu.2 _, hu.1⟩, ih hs hr⟩

/-! ### The selector -/

theorem Reading.passes_quoted {depth : Nat} {quote : Char} {value : Text} (hq : quote ≠ '\\')
    (h : QuotedBody quote value) :
    Passes ⟨depth, .quoted quote⟩ (value ++ [quote]) ⟨depth, .code⟩ := by
  have hstop : ∀ c, (Reading.mk depth (.quoted quote)).stops c = false := fun c => rfl
  induction h with
  | nil =>
    have hs : (Reading.mk depth (.quoted quote)).step quote = ⟨depth, .code⟩ := by
      rw [step, if_neg hq, if_pos rfl]
    exact ⟨rfl, hs⟩
  | @char c rest hc hb _ ih =>
    have hs : (Reading.mk depth (.quoted quote)).step c = ⟨depth, .quoted quote⟩ := by
      rw [step, if_neg hb, if_neg hc]
    rw [List.cons_append, Passes, split, hstop, List.foldl_cons, hs]
    exact ih
  | escape c _ ih => exact ih

theorem selfContained_importSelector {path : Text} (h : QuotedBody (pathQuote path) path) :
    SelfContained (importSelector path) := by
  have hfront : Reading.Passes {} (":import(".toList ++ [pathQuote path])
      ⟨1, .quoted (pathQuote path)⟩ := by
    rcases pathQuote_eq path with hq | hq <;> rw [hq] <;> exact ⟨rfl, rfl⟩
  have hpath : Reading.Passes ⟨1, .quoted (pathQuote path)⟩ (path ++ [pathQuote path]) ⟨1, .code⟩ :=
    Reading.passes_quoted (by rcases pathQuote_eq path with hq | hq <;> rw [hq] <;> decide) h
  have hclose : Reading.Passes ⟨1, .code⟩ [')'] {} := ⟨rfl, rfl⟩
  have heq : importSelector path =
      ":import(".toList ++ [pathQuote path] ++ ((path ++ [pathQuote path]) ++ [')']) := by
    rw [importSelector_eq]
    simp
  obtain ⟨hn, hf⟩ := hfront.append (hpath.append hclose)
  rw [heq, SelfContained, hf]
  exact ⟨hn, rfl, rfl⟩

theorem quotedBody_of_not_mem {quote : Char} {path : Text} (h : QuotedBody quote path)
    (hm : '\'' ∉ path) : QuotedBody '\'' path := by
  induction h with
  | nil => exact .nil
  | char hc hb _ ih =>
    rw [List.mem_cons, not_or] at hm
    exact .char (Ne.symm hm.1) hb (ih hm.2)
  | escape c _ ih =>
    simp only [List.mem_cons, not_or] at hm
    exact .escape c (ih hm.2.2)

/-- What was read between quotes is put between quotes that do not end in it, unless there are both
kinds in it, the double ones bare. -/
theorem quotedBody_pathQuote {quote : Char} {path : Text} (h : QuotedBody quote path)
    (hp : '\'' ∉ path ∨ QuotedBody '"' path) : QuotedBody (pathQuote path) path := by
  rw [pathQuote]
  split
  · next hm => exact hp.resolve_left fun hn => hn (List.contains_iff_mem.mp hm)
  · next hm => exact quotedBody_of_not_mem h fun hm' => hm (List.contains_iff_mem.mpr hm')

/-! ### The rule is read -/

section
variable {path : Text} {entries : List (Text × Text)}

theorem leadText_importSelector (h : SelfContained (importSelector path)) :
    LeadText (importSelector path) := by
  obtain ⟨tail, ht⟩ : ∃ tail, importSelector path = ':' :: tail := ⟨_, rfl⟩
  refine ⟨⟨trim_importSelector path, closed_iff.mpr h⟩, ?_, ?_, ?_⟩ <;> rw [ht]
  · exact List.cons_ne_nil _ _
  · rintro ⟨rest, hr⟩
    cases hr
  · rintro ⟨rest, hr⟩
    cases hr

theorem composed_declarations (h : ∀ e ∈ entries, Identifier e.1 ∧ Identifier e.2) :
    Composed (entries.map fun e => .declaration e.1 e.2) := by
  induction entries with
  | nil => exact .nil
  | cons e entries ih =>
    obtain ⟨⟨hn, hv⟩, hr⟩ := List.forall_mem_cons.mp h
    exact .declaration hn.leadText
      (findColon?_eq_byteLength_iff.mpr (splitAtColon?_of_names hn.2 [])) hv.leadText.toPartText
      (ih hr)

theorem parse_importRule (hs : SelfContained (importSelector path))
    (he : ∀ e ∈ entries, Identifier e.1 ∧ Identifier e.2) :
    parse (importRuleOf path entries).print = .ok { nodes := [importRuleOf path entries] } := by
  have hc : Composed [importRuleOf path entries] :=
    .rule (leadText_importSelector hs) (composed_declarations he) .nil
  refine parse_eq_ok_iff_legible.mpr ⟨?_, hc.legible [], hc.arranged rfl⟩
  rw [Stylesheet.print, printAll, printAll, List.append_nil, List.append_nil]

theorem importPath?_importRuleOf : (importRuleOf path entries).importPath? = some path :=
  importPath?_importSelector path

theorem entries_importRuleOf : (importRuleOf path entries).entries = entries := by
  have hm : (entries.map fun e => Node.declaration e.1 e.2).filterMap Node.declaration? = entries := by
    rw [List.filterMap_map]
    exact List.filterMap_some
  exact hm

end

/-! ### The rule is read as another one -/

theorem selfContained_of_space {s : Text} (h : SelfContained (s ++ [')'] ++ [' '])) :
    SelfContained (s ++ [')']) := by
  obtain ⟨hp, hi, hd⟩ := h
  refine ⟨(Reading.passes_append_iff.mp ⟨hp, rfl⟩).1.1, ?_⟩
  have hq : (s.foldl Reading.step {}).Quoting :=
    Reading.Quoting.foldl (r := {}) trivial s
  rw [List.append_assoc, List.foldl_append] at hi hd
  rw [List.foldl_append]
  generalize s.foldl Reading.step {} = r at hi hd hq
  obtain ⟨depth, mode⟩ := r
  cases mode
  case quoted quote => rcases isQuote_cases hq with rfl | rfl <;> cases hi
  case quotedEscape quote => rcases isQuote_cases hq with rfl | rfl <;> cases hi
  all_goals exact ⟨hi, hd⟩

theorem not_mem_brace_of_names {s : Text} (h : ∀ c ∈ s, isNameChar c) : '{' ∉ s := fun hm =>
  not_mem_marks_of_isNameChar (h _ hm) (by decide)

theorem not_mem_brace_printAll {entries : List (Text × Text)}
    (he : ∀ e ∈ entries, Identifier e.1 ∧ Identifier e.2) :
    '{' ∉ printAll (entries.map fun e => .declaration e.1 e.2) := by
  induction entries with
  | nil => exact List.not_mem_nil
  | cons e entries ih =>
    obtain ⟨⟨hn, hv⟩, hr⟩ := List.forall_mem_cons.mp he
    have h1 := not_mem_brace_of_names hn.2
    have h2 := not_mem_brace_of_names hv.2
    rw [List.map_cons, printAll, List.mem_append, not_or]
    refine ⟨?_, ih hr⟩
    simp [Node.declaration, Node.print, Leaf.print, Layout.declaration, Layout.terminator, h1, h2]

theorem print_importRuleOf (path : Text) (entries : List (Text × Text)) :
    (importRuleOf path entries).print = '\n' :: (importSelector path ++ ' ' :: '{' ::
      (printAll (entries.map fun e => .declaration e.1 e.2) ++ ['\n', '}'])) := by
  simp [importRuleOf, Node.rule, Node.print, Head.print, Layout.rule]

theorem nextSegment_of_parse {s after : Text} {n : Node} {rest : List Node}
    (h : parse s = .ok { nodes := n :: rest, after }) :
    ∃ t, nextSegment s = .segment n.opening t := by
  obtain ⟨hp, hr⟩ := segments_eq_iff.mp (parse_eq_ok_iff_segments.mp h)
  obtain ⟨more, hm⟩ := n.segments_eq
  rw [segmentsOf, hm, List.cons_append] at hp hr
  rw [printSegments, List.append_assoc] at hp
  exact ⟨_, hp ▸ hr.1⟩

/-- What stands in front of a brace, if the text is read as a rule up to it. -/
theorem eq_of_nextSegment {path t tail selector : Text} {layout : Layout}
    (h : nextSegment ('\n' :: (importSelector path ++ tail)) =
      .segment (.opening (.rule selector) layout) t) :
    importSelector path ++ tail = selector ++ layout.between ++ '{' :: t := by
  have hb : layout.before = ['\n'] := (readSegment_fresh h).1
  have hp := nextSegment_print h
  simp only [Segment.print, Head.print, hb, List.append_assoc, List.cons_append, List.nil_append,
    List.cons.injEq, true_and] at hp
  rw [← hp, List.append_assoc]

/-- A brace inside a selector leaves less of it than its path is long. -/
theorem length_of_brace {path front more : Text} (h : importSelector path = front ++ '{' :: more) :
    front.length ≤ path.length + 8 := by
  have hq : pathQuote path ≠ '{' := by
    rcases pathQuote_eq path with hq | hq <;> rw [hq] <;> decide
  have hr := congrArg List.reverse h
  have hl := congrArg List.length h
  have hi : ":import(".toList.length = 8 := rfl
  simp only [importSelector_eq, List.reverse_append, List.reverse_cons, List.reverse_nil,
    List.nil_append, List.append_assoc, List.cons_append] at hr
  simp only [importSelector_eq, List.length_append, List.length_cons, List.length_nil, hi] at hl
  have hmore : 2 ≤ more.length := by
    rw [← List.length_reverse]
    generalize more.reverse = back at hr
    match back, hr with
    | [], hr => cases hr
    | [c], hr => exact absurd (List.cons.inj (List.cons.inj hr).2).1 hq
    | c :: d :: rest, _ => exact Nat.le_add_left 2 _
  omega

/-- A rule that is read from such a text for the same path has the same selector: one that ends at a
brace inside the path is too short for it. -/
theorem selfContained_of_reread {path : Text} {entries : List (Text × Text)}
    (he : ∀ e ∈ entries, Identifier e.1 ∧ Identifier e.2) {m : Node}
    (hm : parse (importRuleOf path entries).print = .ok { nodes := [m] })
    (hp : m.importPath? = some path) : SelfContained (importSelector path) := by
  rcases m with ⟨content, layout⟩ | ⟨_ | selector, children, layout⟩
  · cases hp
  · cases hp
  obtain ⟨t, hn⟩ := nextSegment_of_parse hm
  rw [print_importRuleOf, Node.opening] at hn
  have hself := selfContained_of_opening hn
  have htext := eq_of_nextSegment hn
  dsimp only at hself htext
  rcases List.append_eq_append_iff.mp htext with ⟨more, hs, ht⟩ | ⟨more, hs, ht⟩
  · -- The brace stands behind the selector, and there is only one.
    have hmore : more = [' '] := by
      match more, ht with
      | [], ht => cases ht
      | [c], ht => rw [(List.cons.inj ht).1]
      | c :: d :: more, ht =>
        obtain ⟨-, -, hy⟩ : _ ∧ _ ∧ _ = more ++ '{' :: t := by simpa using ht
        have hy' := not_mem_brace_printAll he
        have hm : '{' ∈ more ++ '{' :: t := by simp
        rw [← hy] at hm
        simp [hy'] at hm
    obtain ⟨front, hf⟩ : ∃ front, importSelector path = front ++ [')'] :=
      ⟨_, by rw [importSelector_eq, ← List.append_assoc]⟩
    rw [hs, hmore, hf] at hself
    rw [hf]
    exact selfContained_of_space hself
  · obtain ⟨rest, rfl⟩ : ∃ rest, more = '{' :: rest := by
      cases more with
      | nil => cases ht
      | cons c rest => exact ⟨rest, by rw [(List.cons.inj ht).1]⟩
    have hlen := length_of_brace hs
    have hpath := length_of_importPath? (show StyleValues.importPath? selector = some path from hp)
    rw [List.length_append] at hlen
    omega

theorem identifiers_of_read {stem params path : Text} {names : List ImportedName} (anchor : Nat)
    (hstem : ∀ c ∈ stem, isNameChar c) (h : Definition.read params = .ok (.imports path names))
    (hn : ∀ n ∈ names, (∀ c ∈ n.source, isNameChar c) ∧ ∀ c ∈ n.name, isNameChar c) :
    ∀ e ∈ registered stem (usesOf path anchor names), Identifier e.1 ∧ Identifier e.2 := by
  refine identifiers_of_allot hstem fun u hu => ?_
  obtain ⟨n, hm, rfl⟩ := List.mem_map.mp hu
  exact ⟨⟨(nameWords_of_read h n hm).1.ne_nil, (hn n hm).1⟩, (hn n hm).2⟩

/-- The new rule for an import with plain names has the path and the registered entries. It is read
back with both exactly if its selector ends nowhere but behind it. So it is if the path has no
apostrophe, or no double quote but behind a backslash. -/
theorem newRules_reread {stem params path : Text} {names : List ImportedName} (anchor : Nat)
    (hstem : ∀ c ∈ stem, isNameChar c) (h : Definition.read params = .ok (.imports path names))
    (hn : ∀ n ∈ names, (∀ c ∈ n.source, isNameChar c) ∧ ∀ c ∈ n.name, isNameChar c) :
    ∃ n, ((Imports.ofNodes stem []).registerAll (usesOf path anchor names)).newRules =
        [(anchor, n)] ∧
      n.importPath? = some path ∧ n.entries = registered stem (usesOf path anchor names) ∧
      ((∃ m, parse n.print = .ok { nodes := [m] } ∧ m.importPath? = some path ∧
          m.entries = n.entries) ↔
        statementEnd (importSelector path ++ [';']) 0 =
          .ok ((importSelector path).byteLength, .semicolon)) ∧
      ('\'' ∉ path ∨ QuotedBody '"' path → parse n.print = .ok { nodes := [n] }) := by
  have he := identifiers_of_read anchor hstem h hn
  obtain ⟨quote, -, hq⟩ := quotedBody_of_read h
  refine ⟨_, newRules_of_path (names_ne_nil_of_read h), importPath?_importRuleOf,
    entries_importRuleOf, ?_, fun hp => ?_⟩
  · rw [closed_iff]
    constructor
    · rintro ⟨m, hm, hp, -⟩
      exact selfContained_of_reread he hm hp
    · exact fun hs => ⟨_, parse_importRule hs he, importPath?_importRuleOf, rfl⟩
  · exact parse_importRule (selfContained_importSelector (quotedBody_pathQuote hq hp)) he

def escapedPath : Text := ['\\', '"', '\'']

theorem read_escapedPath : Definition.read ("a as b from \"".toList ++ escapedPath ++ ['"']) =
    .ok (.imports escapedPath [⟨['a'], ['b']⟩]) := by
  have hf : (tokenize? ("a as b from \"".toList ++ escapedPath ++ ['"'])).bind
      (splitAtLast? (Token.isWord "from".toList)) = some
        ([.word ['a'], .space [' '], .word "as".toList, .space [' '], .word ['b'], .space [' ']],
          [.space [' '], .quoted '"' escapedPath]) := by cbv
  rw [read_eq_readImports (by cbv) hf]
  cbv

theorem newRules_reread_escaped :
    (∀ c ∈ "__value__".toList, isNameChar c) ∧
    Definition.read ("a as b from \"".toList ++ escapedPath ++ ['"']) =
      .ok (.imports escapedPath [⟨['a'], ['b']⟩]) ∧
    ∃ n, ((Imports.ofNodes "__value__".toList []).registerAll
        (usesOf escapedPath 0 [⟨['a'], ['b']⟩])).newRules = [(0, n)] ∧
      n.importPath? = some escapedPath ∧ n.entries = [("__value__b__0".toList, ['a'])] ∧
      parse n.print = .ok { nodes := [n] } := by
  have hstem : ∀ c ∈ "__value__".toList, isNameChar c := List.all_eq_true.mp rfl
  have hbody : QuotedBody '"' escapedPath :=
    .escape '"' (.char (by decide) (by decide) .nil)
  obtain ⟨n, hr, hp, he, -, hn⟩ := newRules_reread 0 hstem read_escapedPath
    (by simp only [List.forall_mem_singleton]; exact ⟨rfl, rfl⟩)
  exact ⟨hstem, read_escapedPath, n, hr, hp, he.trans (by cbv), hn (.inr hbody)⟩

def barePath : Text := ['"', '\\', '\'']

/-- The rule for such a path is not read back. -/
theorem newRules_reread_bare :
    Definition.read ("x from '".toList ++ barePath ++ ['\'']) =
      .ok (.imports barePath [⟨['x'], ['x']⟩]) ∧
    ∃ n, ((Imports.ofNodes "__value__".toList []).registerAll
        (usesOf barePath 0 [⟨['x'], ['x']⟩])).newRules = [(0, n)] ∧
      n.print = "\n:import(\"\"\\'\") \x7b\n  __value__x__0: x;\n\x7d".toList ∧
      ¬ ∃ m, parse n.print = .ok { nodes := [m] } ∧ m.importPath? = some barePath := by
  have hf : (tokenize? ("x from '".toList ++ barePath ++ ['\''])).bind
      (splitAtLast? (Token.isWord "from".toList)) = some
        ([.word ['x'], .space [' ']], [.space [' '], .quoted '\'' barePath]) := by cbv
  have hread : Definition.read ("x from '".toList ++ barePath ++ ['\'']) =
      .ok (.imports barePath [⟨['x'], ['x']⟩]) := by
    rw [read_eq_readImports (by cbv) hf]
    cbv
  have hstem : ∀ c ∈ "__value__".toList, isNameChar c := List.all_eq_true.mp rfl
  have he := identifiers_of_read 0 hstem hread
    (by simp only [List.forall_mem_singleton]; exact ⟨rfl, rfl⟩)
  have hentries : registered "__value__".toList (usesOf barePath 0 [⟨['x'], ['x']⟩]) =
      [("__value__x__0".toList, ['x'])] := by cbv
  refine ⟨hread, _, newRules_of_path (List.cons_ne_nil _ _), by rw [hentries]; decide, ?_⟩
  rintro ⟨m, hm, hp⟩
  have hs := selfContained_of_reread he hm hp
  exact absurd hs.2.1 (by decide)

end StyleValues
