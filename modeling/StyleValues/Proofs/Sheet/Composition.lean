import StyleValues.Proofs.Sheet.ClosedTexts

/-!
# Sheets that were put together

A sheet that was never read is made of new at-rules, rules and declarations,
each with the layout of its kind. If their texts stand for themselves, then the
printed sheet is read as that very sheet, however deep its rules are nested.
-/

set_option autoImplicit false

namespace StyleValues

inductive Composed : List Node → Prop
  | nil : Composed []
  | atRule {name params : Text} {rest : List Node} :
    name ≠ [] → (∀ c ∈ name, isNameChar c) → PartText params → params ≠ [] →
      Composed rest → Composed (.atRule name params :: rest)
  | rule {selector : Text} {children rest : List Node} :
    LeadText selector → Composed children → Composed rest →
      Composed (.rule selector children :: rest)
  | declaration {property value : Text} {rest : List Node} :
    LeadText property → findColon? (property ++ [':']) = some property.byteLength →
      PartText value → Composed rest → Composed (.declaration property value :: rest)

namespace Composed

variable {nodes : List Node}

theorem legible (h : Composed nodes) (next : Text) : Legible next nodes := by
  induction h generalizing next with
  | nil => exact List.forall_mem_nil _
  | atRule hn hc hp hne _ ih =>
    exact (legible_leaf next _ _ _).mpr ⟨readsBack_atRule rfl hn hc hp hne next, ih next⟩
  | rule hs _ _ ihc ih =>
    exact (legible_block next _ _ _ _).mpr ⟨readsBack_rule rfl hs next, ihc ['}'], ih next⟩
  | declaration hp hc hv _ ih =>
    exact (legible_leaf next _ _ _).mpr
      ⟨readsBack_declaration rfl (hp.propertyText (findColon?_eq_byteLength_iff.mp hc))
        (partText_iff.mp hv) next, ih next⟩

theorem arranged (h : Composed nodes) {after : Text} (ha : after.all isFiller) :
    Arranged after nodes := by
  induction h generalizing after with
  | nil => exact ha
  | atRule _ _ _ _ _ ih => exact ⟨Or.inl rfl, trivial, ih ha⟩
  | rule _ _ _ ihc ih => exact ⟨Or.inl rfl, ihc rfl, ih ha⟩
  | declaration _ _ _ _ ih => exact ⟨Or.inl rfl, trivial, ih ha⟩

end Composed

/-- A sheet of new nodes whose texts stand for themselves is read back from its print. -/
theorem parse_print_of_composed {nodes : List Node} (h : Composed nodes) :
    parse (Stylesheet.print { nodes }) = .ok { nodes } :=
  parse_eq_ok_iff_legible.mpr ⟨rfl, h.legible [], h.arranged rfl⟩

def nestedRules : List Node :=
  [.rule "a:b".toList
      [.declaration "c".toList "url(d;e) '\x7d'".toList, .rule "/ f".toList [],
        .atRule "g".toList "h\\;".toList],
    .declaration "i".toList []]

theorem composed_nestedRules : Composed nestedRules := by
  have hname : ∀ c ∈ "g".toList, isNameChar c := List.forall_mem_singleton.mpr rfl
  refine .rule ⟨⟨rfl, rfl⟩, by decide, by decide, by decide⟩ ?_ ?_
  · refine .declaration ⟨⟨rfl, rfl⟩, by decide, by decide, by decide⟩ rfl ⟨rfl, rfl⟩ ?_
    refine .rule ⟨⟨rfl, rfl⟩, by decide, by decide, by decide⟩ .nil ?_
    exact .atRule (by decide) hname ⟨rfl, rfl⟩ (by decide) .nil
  · exact .declaration ⟨⟨rfl, rfl⟩, by decide, by decide, by decide⟩ rfl ⟨rfl, rfl⟩ .nil

theorem parse_print_of_composed_nested :
    Composed nestedRules ∧
      parse (Stylesheet.print { nodes := nestedRules }) = .ok { nodes := nestedRules } :=
  ⟨composed_nestedRules, parse_print_of_composed composed_nestedRules⟩

end StyleValues
