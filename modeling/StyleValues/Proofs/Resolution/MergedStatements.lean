import StyleValues.Proofs.Definition.Values
import StyleValues.Proofs.Resolution.Rereading

/-!
# Statements without a semicolon between them

A statement whose semicolon is missing takes the next one for a part of its
own parameters. The definition grammar rejects parameters that hold the
keyword in small letters, while a statement is recognized in letters of any
case. So two statements that were merged are reported if the second keyword is
written in small letters; in other letters it may end up in a value.
-/

set_option autoImplicit false

namespace StyleValues

open Text

def mergedText (keyword p q : Text) : Text := p ++ '\n' :: (keyword ++ ' ' :: q)

/-! ### Keywords -/

theorem not_isBlank_of_isUpper {c : Char} (h : c.isUpper) : isBlank c = false := by
  have hc : 65 ≤ c.toNat ∧ c.toNat ≤ 90 := by
    simpa [Char.isUpper, UInt32.le_iff_toNat_le, ← Char.toNat_val] using h
  simp only [isBlank, Bool.or_eq_false_iff, Bool.and_eq_false_iff, decide_eq_false_iff_not,
    beq_eq_false_iff_ne]
  omega

section
variable {keyword : Text} (hk : keyword.equalsIgnoringCase "@value".toList)
include hk

theorem map_toLower_keyword : keyword.map Char.toLower = "@value".toList := eq_of_beq hk

theorem toLower_mem_keyword {c : Char} (hc : c ∈ keyword) : c.toLower ∈ "@value".toList := by
  rw [← map_toLower_keyword hk]
  exact List.mem_map_of_mem hc

theorem neutral_keyword : Neutral keyword := by
  have h : ∀ c ∈ readingMarks, c.toLower ∉ "@value".toList := by simp [readingMarks]
  exact fun c hc hm => h c hm (toLower_mem_keyword hk hc)

theorem not_isBlank_of_mem_keyword {c : Char} (hc : c ∈ keyword) : isBlank c = false := by
  have h := toLower_mem_keyword hk hc
  by_cases hu : c.isUpper
  · exact not_isBlank_of_isUpper hu
  · rw [Char.toLower_eq_of_not_isUpper hu] at h
    have hall : ("@value".toList.all fun d => !isBlank d) = true := by cbv
    simpa using List.all_eq_true.mp hall c h

theorem keyword_ne_nil : keyword ≠ [] := by
  rintro rfl
  cases map_toLower_keyword hk

theorem infix_keyword_iff : "@value".toList <:+: keyword ↔ keyword = "@value".toList := by
  constructor
  · intro h
    refine (h.eq_of_length ?_).symm
    rw [← map_toLower_keyword hk, List.length_map]
  · rintro rfl
    exact List.infix_refl _

theorem not_from_infix_keyword : ¬ "from".toList <:+: keyword := by
  intro h
  have hm := h.map Char.toLower
  rw [map_toLower_keyword hk] at hm
  revert hm
  decide

end

/-! ### The merged text -/

section
variable {keyword p q : Text}

/-- The merged text holds a word only where one of its parts does. -/
theorem infix_trim_mergedText_iff {word : Text} (hw : word.all fun c => !isBlank c) :
    word <:+: trim (mergedText keyword p q) ↔ word <:+: p ∨ word <:+: keyword ∨ word <:+: q := by
  have hb : ∀ c ∈ word, isBlank c = false := by simpa using hw
  have hs : NoBlankStart word := fun c hc => hb c (List.mem_of_head? hc)
  have he : NoBlankEnd word := fun c hc => hb c (List.mem_of_getLast? hc)
  have hn : ∀ c, isBlank c → c ∉ word := by
    intro c hc hm
    rw [hb c hm] at hc
    cases hc
  rw [infix_trim_iff hs he, mergedText, infix_append_cons_iff (hn _ rfl),
    infix_append_cons_iff (hn _ rfl)]

variable (hk : keyword.equalsIgnoringCase "@value".toList)
include hk

theorem selfContained_mergedText (hp : SelfContained p) (hq : SelfContained q) :
    SelfContained (mergedText keyword p q) := by
  have hkey : SelfContained keyword := selfContained_of_neutral (neutral_keyword hk)
  exact hp.append (by decide) (hkey.append (by decide) hq)

theorem value_infix_trim_mergedText_iff : "@value".toList <:+: trim (mergedText keyword p q) ↔
    keyword = "@value".toList ∨ "@value".toList <:+: p ∨ "@value".toList <:+: q := by
  rw [infix_trim_mergedText_iff (by cbv), infix_keyword_iff hk, or_left_comm]

theorem not_from_infix_trim_mergedText (hp : ¬ "from".toList <:+: p) (hq : ¬ "from".toList <:+: q) :
    ¬ "from".toList <:+: trim (mergedText keyword p q) := by
  rw [infix_trim_mergedText_iff (by cbv)]
  exact fun h => h.elim hp fun h => h.elim (not_from_infix_keyword hk) hq

theorem head?_trimEnd_second (q : Text) :
    (trimEnd ('\n' :: (keyword ++ ' ' :: q))).head? = some '\n' := by
  have hcut := trimEnd_append ('\n' :: (keyword ++ ' ' :: q))
  cases ht : trimEnd ('\n' :: (keyword ++ ' ' :: q)) with
  | nil =>
    rw [ht, List.nil_append] at hcut
    obtain ⟨c, tail, rfl⟩ := List.exists_cons_of_ne_nil (keyword_ne_nil hk)
    have hm : c ∈ trailingBlanks ('\n' :: (c :: tail ++ ' ' :: q)) := by
      rw [hcut]
      simp
    have hb := isBlank_of_mem_trailingBlanks hm
    rw [not_isBlank_of_mem_keyword hk List.mem_cons_self] at hb
    cases hb
  | cons c tail =>
    rw [ht] at hcut
    exact congrArg some (List.cons.inj hcut).1

/-- If the first statement gives a name a value, then the value of the merged one runs on through
the second. -/
theorem readValue_mergedText {name value : Text} (h : readValue p = .ok (.value name value)) :
    readValue (trim (mergedText keyword p q)) =
      .ok (.value name
        (value ++ ((padding p).trailing ++ trimEnd ('\n' :: (keyword ++ ' ' :: q))))) := by
  have hhead := head?_trimEnd_second hk q
  have hend : NoBlankEnd (trimEnd ('\n' :: (keyword ++ ' ' :: q))) := noBlankEnd_trimEnd _
  have hp : trim p ≠ [] := by
    obtain ⟨hname, -, clause, hs, -⟩ := readValue_eq_ok_iff.mp h
    rw [hs]
    exact List.append_ne_nil_of_left_ne_nil hname.ne_nil clause
  have hne : trimEnd ('\n' :: (keyword ++ ' ' :: q)) ≠ [] := by
    intro he
    rw [he] at hhead
    cases hhead
  rw [mergedText, trim_append hp hne]
  generalize trimEnd ('\n' :: (keyword ++ ' ' :: q)) = second at hhead hend hne
  refine readValue_append (List.append_ne_nil_of_right_ne_nil _ hne) ?_ ?_ h
  · intro c hc
    rw [List.getLast?_append_of_ne_nil _ hne] at hc
    exact hend c hc
  · -- Neither white space nor the line end goes on in a comment.
    intro hstar
    rw [List.head?_append, hhead] at hstar
    cases ht : (padding p).trailing with
    | nil =>
      rw [ht] at hstar
      cases hstar
    | cons c tail =>
      rw [ht] at hstar
      cases hstar
      have hb : isBlank '*' := isBlank_of_mem_trailingBlanks (ht ▸ List.mem_cons_self)
      cases hb

end

/-! ### The merged statement -/

theorem parse_atRule {name tail : Text} (hn : name ≠ []) (hc : ∀ c ∈ name, isNameChar c)
    (hs : SelfContained tail) (ht : ∀ c, tail.head? = some c → isNameChar c = false) :
    parse ('@' :: (name ++ (tail ++ [';']))) =
      .ok { nodes := [.leaf (.atRule name (padding tail).body)
        { atRuleLayout [] tail with semicolon := true }] } := by
  rw [parse_eq_ok_iff_legible]
  refine ⟨?_, ?_, ?_⟩
  · have h := print_atRuleOf [] name tail true
    rw [Stylesheet.print, List.append_nil]
    exact (List.append_nil _).trans h
  · rw [legible_leaf_iff]
    exact readsBack_atRuleOf rfl hn hc hs ht (.inl rfl)
  · exact ⟨.inl rfl, trivial, rfl⟩

def mergedSheet (keyword p q : Text) : Stylesheet :=
  { nodes := [.leaf (.atRule valueKeyword (trim (mergedText keyword p q)))
    { atRuleLayout [] (' ' :: mergedText keyword p q) with semicolon := true }] }

section
variable {keyword p q : Text} (hk : keyword.equalsIgnoringCase "@value".toList)
  (hp : SelfContained p) (hq : SelfContained q)
include hk hp hq

theorem parse_merged :
    parse ("@value ".toList ++ mergedText keyword p q ++ [';']) = .ok (mergedSheet keyword p q) := by
  have hs : SelfContained (' ' :: mergedText keyword p q) :=
    SelfContained.append (s := []) ⟨rfl, rfl, rfl⟩ (by decide) (selfContained_mergedText hk hp hq)
  have hn : valueKeyword ≠ [] := by decide
  exact parse_atRule hn (List.all_eq_true.mp rfl) hs (by rintro _ ⟨⟩; rfl)

theorem map_invalidWarning_merged :
    (mergedSheet keyword p q).nodes.map invalidWarning =
      [{ kind := .invalidDefinition (trim (mergedText keyword p q))
         statement := some ("@value ".toList ++ mergedText keyword p q ++ [';']) }] := by
  have hprint : (mergedSheet keyword p q).print =
      "@value ".toList ++ mergedText keyword p q ++ [';'] :=
    (parse_eq_ok_iff_legible.mp (parse_merged hk hp hq)).1
  have htrim : trim ("@value ".toList ++ mergedText keyword p q ++ [';']) =
      "@value ".toList ++ mergedText keyword p q ++ [';'] := by
    refine trim_eq_self ?_ ?_
    · rintro _ ⟨⟩
      rfl
    · intro c hc
      rw [List.getLast?_concat] at hc
      cases hc
      rfl
  rw [Stylesheet.print, mergedSheet, printAll, printAll, List.append_nil, List.append_nil] at hprint
  rw [mergedSheet, List.map_singleton, invalidWarning, hprint, htrim]
  rfl

/-- A run reports the merged statement and publishes nothing exactly if the merged text is no
definition. -/
theorem report_merged_eq_iff (config : Config) (input : List Message) :
    (resolve config input (mergedSheet keyword p q)).2 =
        { messages := []
          warnings := [{
            kind := .invalidDefinition (trim (mergedText keyword p q))
            statement := some ("@value ".toList ++ mergedText keyword p q ++ [';']) }] } ↔
      Rejected (trim (mergedText keyword p q)) := by
  constructor
  · intro h
    have hm : (resolve config input (mergedSheet keyword p q)).2.messages = [] := by rw [h]
    exact rejected_of_messages hm _ List.mem_cons_self rfl
  · intro h
    have hr : ∀ n ∈ preorder (mergedSheet keyword p q).nodes,
        n.isAtRule valueKeyword → Rejected (n.params?.getD []) :=
      List.forall_mem_singleton.mpr fun _ => h
    have hw : (preorder (mergedSheet keyword p q).nodes).filter (Node.isAtRule valueKeyword) =
      (mergedSheet keyword p q).nodes := rfl
    rw [resolve_of_rejected config input hr, hw, map_invalidWarning_merged hk hp hq]

end

theorem report_lone (config : Config) (input : List Message) {params name value : Text} (layout : Layout)
    (hd : Definition.read params = .ok (.value name value)) :
    ∃ shown, (resolve config input
        { nodes := [.leaf (.atRule valueKeyword params) layout] }).2.messages =
          [.boundName config.plugin name shown] ∧
      (input = [] → shown = value) ∧
      ∀ w ∈ (resolve config input
        { nodes := [.leaf (.atRule valueKeyword params) layout] }).2.warnings,
          w.kind = .dotOrHash name := by
  have hc := collect_lone config layout hd
  have hm : (resolve config input { nodes := [.leaf (.atRule valueKeyword params) layout] }).2.messages =
      [.boundName config.plugin name (redirect (redirectsOf (collect config
        { nodes := [.leaf (.atRule valueKeyword params) layout] }).bindings input) value)] := by
    rw [resolve, published, hc]
    rfl
  refine ⟨_, hm, ?_, ?_⟩
  · rintro rfl
    rfl
  · intro w hw
    have he : (resolve config input { nodes := [.leaf (.atRule valueKeyword params) layout] }).2.warnings =
      (collect config { nodes := [.leaf (.atRule valueKeyword params) layout] }).warnings := rfl
    rw [he, hc] at hw
    obtain ⟨kind, hkind, rfl⟩ := List.mem_map.mp hw
    have hd : (Progress.start config.stem [.leaf (.atRule valueKeyword params) layout]).doubts name =
        (if name.any (fun c => c == '.' || c == '#') then [.dotOrHash name] else []) ++ [] := rfl
    rw [hd, List.append_nil] at hkind
    split at hkind
    · exact List.mem_singleton.mp hkind
    · cases hkind

/-- Two statements without a semicolon between them are read as one. It is reported, and nothing is
published, exactly if the merged text is no definition. That is so if the second keyword, or either
text, has `@value` in small letters. Otherwise, if the first text by itself gives a name a value and
neither text has a `from`, then that name is published with a value that runs on through the second
statement, and no invalid definition is reported. -/
theorem report_of_merged (config : Config) (input : List Message) {keyword p q : Text}
    (hk : keyword.equalsIgnoringCase "@value".toList)
    (hp : statementEnd (p ++ [';']) 0 = .ok (p.byteLength, .semicolon))
    (hq : statementEnd (q ++ [';']) 0 = .ok (q.byteLength, .semicolon)) :
    let merged := trim (mergedText keyword p q)
    let source := "@value ".toList ++ mergedText keyword p q ++ [';']
    let reported : Report :=
      { messages := []
        warnings := [{ kind := .invalidDefinition merged, statement := some source }] }
    ∃ run, resolveText config input source = .ok run ∧
      (run.report = reported ↔ Rejected merged) ∧
      (keyword = "@value".toList ∨ "@value".toList <:+: p ∨ "@value".toList <:+: q →
        run.report = reported) ∧
      (¬ (keyword = "@value".toList ∨ "@value".toList <:+: p ∨ "@value".toList <:+: q) →
        ¬ "from".toList <:+: p → ¬ "from".toList <:+: q →
          ∀ name value, readValue p = .ok (.value name value) →
            ∃ shown, run.report.messages = [.boundName config.plugin name shown] ∧
              (input = [] → shown =
                value ++ ((padding p).trailing ++ trimEnd ('\n' :: (keyword ++ ' ' :: q)))) ∧
              ∀ w ∈ run.report.warnings, w.kind = .dotOrHash name) := by
  rw [closed_iff] at hp hq
  intro merged source reported
  have hreport := report_merged_eq_iff hk hp hq config input
  refine ⟨_, resolveText_of_parse config input (parse_merged hk hp hq), hreport, ?_, ?_⟩
  · intro h
    apply hreport.mpr
    rw [← value_infix_trim_mergedText_iff hk, ← hasSubtext_iff] at h
    exact ⟨.mergedStatements, by rw [Definition.read, if_pos h]⟩
  · intro hv hpf hqf name value hd
    rw [← value_infix_trim_mergedText_iff hk] at hv
    apply report_lone config input
    rw [read_eq_readValue_of_no_from hv (not_from_infix_trim_mergedText hk hpf hqf)]
    exact readValue_mergedText hk hd

/-- A second statement in capital letters becomes a part of the first value, and one in small letters
is reported. -/
theorem report_of_merged_colors :
    (∃ run, resolveText {} [] ("@value ".toList ++
        mergedText "@VALUE".toList "a: red".toList "b: blue".toList ++ [';']) = .ok run ∧
      run.report.messages =
        [.boundName "icss-values".toList ['a'] "red\n@VALUE b: blue".toList] ∧
      ∀ w ∈ run.report.warnings, w.kind = .dotOrHash ['a']) ∧
    ∃ run, resolveText {} [] ("@value ".toList ++
        mergedText "@value".toList "a: red".toList "b: blue".toList ++ [';']) = .ok run ∧
      run.report =
        { messages := []
          warnings := [{
            kind := .invalidDefinition "a: red\n@value b: blue".toList
            statement := some "@value a: red\n@value b: blue;".toList }] } := by
  have hp : statementEnd ("a: red".toList ++ [';']) 0 =
      .ok (byteLength "a: red".toList, .semicolon) := by cbv
  have hq : statementEnd ("b: blue".toList ++ [';']) 0 =
      .ok (byteLength "b: blue".toList, .semicolon) := by cbv
  have hcapitals : equalsIgnoringCase "@VALUE".toList "@value".toList := by cbv
  have hsmall : equalsIgnoringCase "@value".toList "@value".toList := by cbv
  constructor
  · obtain ⟨run, hr, -, -, hvalue⟩ := report_of_merged {} [] hcapitals hp hq
    have hread : readValue "a: red".toList = .ok (.value ['a'] "red".toList) := by cbv
    obtain ⟨shown, hm, hs, hw⟩ := hvalue (by decide) (by decide) (by decide) _ _ hread
    rw [hs rfl] at hm
    exact ⟨run, hr, hm.trans (by cbv), hw⟩
  · obtain ⟨run, hr, -, hreported, -⟩ := report_of_merged {} [] hsmall hp hq
    refine ⟨run, hr, (hreported (.inl rfl)).trans ?_⟩
    cbv

/-- Two colors, the second defined in capital letters: nothing is reported, and the second color is
gone into the first. -/
theorem capitals_not_reported :
    ∃ css, resolveText {} [] "@value a: red\n@VALUE b: blue;".toList =
      .ok {
        css
        report := {
          messages := [.boundName "icss-values".toList ['a'] "red\n@VALUE b: blue".toList]
          warnings := [] } } := by
  have hd : Definition.read "a: red\n@VALUE b: blue".toList =
      .ok (.value ['a'] "red\n@VALUE b: blue".toList) := by
    rw [read_eq_readValue (by cbv) (by cbv)]
    cbv
  have hs : parse "@value a: red\n@VALUE b: blue;".toList = .ok { nodes := [
      .leaf (.atRule valueKeyword "a: red\n@VALUE b: blue".toList)
        { afterName := [' '], semicolon := true }] } := by
    cbv
  have hw : (collect {} { nodes := [
      .leaf (.atRule valueKeyword "a: red\n@VALUE b: blue".toList)
        { afterName := [' '], semicolon := true }] }).warnings = [] := by
    rw [collect_lone {} _ hd]
    rfl
  have ht := resolveText_of_parse {} [] hs
  rw [resolve_lone {} _ hd, hw] at ht
  exact ⟨_, ht⟩

end StyleValues
