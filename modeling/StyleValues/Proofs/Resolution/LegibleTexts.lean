import StyleValues.Proofs.Interchange.ImportRules
import StyleValues.Proofs.Resolution.Texts
import StyleValues.Proofs.Sheet.Rewording
import StyleValues.Proofs.Substitution.Identifiers

/-!
# Sheets with their texts replaced

A replacement writes values in the place of tokens, all as they are. Each of
them can be judged by itself, at the place of its token. If all of them fit,
then every node that was read is read with its new text.
-/

set_option autoImplicit false

namespace StyleValues

open Text

/-! ### The text of a token -/

def Redirects.AreTokens (rs : Redirects) : Prop := ∀ e ∈ rs, ∀ c ∈ e.1, isTokenChar c

namespace Replacement

variable (r : Replacement)

theorem text_nil (isTarget : Bool) : r.text isTarget [] = [] := by
  cases isTarget <;> exact redirect_nil r.redirects

/-- A character that is in no token stays, and parts the text. -/
theorem text_append_cons (hr : r.redirects.AreTokens) {c : Char} (hc : ¬ isTokenChar c)
    (isTarget : Bool) (a b : Text) :
    r.text isTarget (a ++ c :: b) = r.text isTarget a ++ c :: r.text isTarget b := by
  have hcut : ∀ a b, redirect r.redirects (a ++ c :: b) =
      redirect r.redirects a ++ c :: redirect r.redirects b :=
    redirect_append_cons (fun h => hc (isTokenChar_of_isNameChar h)) fun e he h => hc (hr e he _ h)
  cases isTarget with
  | false => exact hcut a b
  | true =>
    have hs : r.bindings.resolve (a ++ c :: b) = r.bindings.resolve a ++ c :: r.bindings.resolve b := by
      rw [Bindings.resolve, substitute_eq_mapRuns, mapRuns_append_cons _ _ hc,
        ← substitute_eq_mapRuns, ← substitute_eq_mapRuns]
      rfl
    rw [text, if_pos rfl, hs, hcut]
    rfl

theorem text_eq_mapRuns (hr : r.redirects.AreTokens) (isTarget : Bool) (s : Text) :
    r.text isTarget s = mapRuns isTokenChar (r.text isTarget) s := by
  induction s using cutInduction (q := isTokenChar) with
  | run w hw => rw [mapRuns_of_all hw]
  | cut w c rest hw hc ih =>
    rw [mapRuns_append_cons _ _ hc, mapRuns_of_all hw, ← ih, r.text_append_cons hr hc]

theorem node_withBefore (n : Node) (before : Text) :
    r.node (n.withBefore before) = (r.node n).withBefore before := by
  cases n with
  | leaf content layout => rfl
  | block head children layout =>
    rw [Node.withBefore, Node.withLayout, node, node]
    split <;> rfl

/-! ### Texts with other tokens in them -/

/-- Whether the parameters of an at-rule can be replaced: each token by a fitting text, and so that
they do not make its name longer. -/
def SuitsParams (name params : Text) (layout : Layout) : Prop :=
  Reading.Takes (r.text (r.config.targetsAtRule name)) [] {} params ∧
    (layout.afterName ≠ [] ∨
      ∀ c ∈ (r.text (r.config.targetsAtRule name) params).head?, isNameChar c = false)

/-- Whether the text of a node can be replaced. A value is read behind its property; a selector must
not come to begin an at-rule or a comment. -/
def Suits : Node → Prop
  | .leaf (.atRule name params) layout => r.SuitsParams name params layout
  | .leaf (.declaration property value) layout =>
    ((property ++ layout.between).foldl Reading.step {}).Takes
      (r.text r.config.targets.declarations) [] value
  | .leaf (.comment _) _ => True
  | .block (.atRule name params) _ layout => r.SuitsParams name params layout
  | .block (.rule selector) _ _ =>
    Reading.Takes (r.text r.config.targets.selectors) [] {} selector ∧
      ¬ ['@'] <+: r.text r.config.targets.selectors selector ∧
        ¬ ['/', '*'] <+: r.text r.config.targets.selectors selector

end Replacement

mutual

def Node.openNodes : Node → List Node
  | .leaf content layout => [.leaf content layout]
  | .block head children layout =>
    if Replacement.isExchangeHead head then []
    else .block head children layout :: openNodes children

/-- The nodes of a sheet outside its exchange blocks, those inside others included. -/
def openNodes : List Node → List Node
  | [] => []
  | n :: rest => n.openNodes ++ openNodes rest

end

theorem openNodes_of_mem {n : Node} {nodes : List Node} (hn : n ∈ nodes) :
    ∀ m ∈ n.openNodes, m ∈ openNodes nodes := by
  induction nodes with
  | nil => cases hn
  | cons k rest ih =>
    intro m hm
    rw [openNodes, List.mem_append]
    rcases List.mem_cons.mp hn with rfl | hn
    · exact Or.inl hm
    · exact Or.inr (ih hn m hm)

section
variable {r : Replacement} (hr : r.redirects.AreTokens)
include hr

/-- What a replacement makes of a text that takes it can be written for that text. -/
theorem rewords_of_takes {isTarget : Bool} {reading : Reading} {s : Text}
    (h : reading.Takes (r.text isTarget) [] s) : reading.Rewords s (r.text isTarget s) := by
  have hf : r.text isTarget [] = [] := r.text_nil isTarget
  constructor
  · rintro rfl
    exact hf
  · intro hne ht hs
    obtain ⟨hn, hsettled⟩ := h.leads hf hs
    rw [r.text_eq_mapRuns hr]
    exact ⟨mapRuns_ne_nil (fun w hw => (h.forall_runs w hw).1) hne, trim_mapRuns hf h.forall_runs ht,
      hn, hsettled⟩

theorem readsBack_leaf {content : Leaf} {layout : Layout} {next : Text}
    (h : Placed.ReadsBack ⟨.leaf content layout, next⟩) (hs : r.Suits (.leaf content layout)) :
    Placed.ReadsBack ⟨.leaf (r.leaf content) layout, next⟩ := by
  cases content with
  | atRule name params =>
    exact readsBack_atRule_reworded h rfl (rewords_of_takes hr hs.1) hs.2
  | declaration property value => exact readsBack_declaration_reworded h (rewords_of_takes hr hs)
  | comment text => exact h

theorem readsBack_head {head : Head} {children : List Node} {layout : Layout} {next : Text}
    (h : Placed.ReadsBack ⟨.opening head { layout with after := [] }, next⟩)
    (hs : r.Suits (.block head children layout)) :
    Placed.ReadsBack ⟨.opening (r.head head) { layout with after := [] }, next⟩ := by
  cases head with
  | atRule name params =>
    exact readsBack_atRule_reworded h rfl (rewords_of_takes hr hs.1) hs.2
  | rule selector =>
    obtain ⟨htakes, hat, hcomment⟩ := hs
    exact readsBack_rule_reworded h (rewords_of_takes hr htakes) hat hcomment

/-- Every node that was read is read with what the replacement makes of it. -/
theorem legible_replacement {next : Text} {nodes : List Node} (h : Legible next nodes)
    (hs : ∀ n ∈ openNodes nodes, r.Suits n) : Legible next (r.nodes nodes) := by
  induction nodes using forestInduction generalizing next with
  | nil => exact h
  | leaf content layout rest ih =>
    obtain ⟨hb, hn⟩ := (legible_leaf ..).mp h
    obtain ⟨hfirst, hrest⟩ := List.forall_mem_cons.mp hs
    exact (legible_leaf ..).mpr ⟨readsBack_leaf hr hb hfirst, ih hn hrest⟩
  | block head children layout rest ihc ihr =>
    obtain ⟨hb, hc, hn⟩ := (legible_block ..).mp h
    rw [openNodes, Node.openNodes] at hs
    rw [Replacement.nodes, Replacement.node]
    split at hs
    · next hx =>
      rw [if_pos hx]
      exact (legible_block ..).mpr ⟨hb, hc, ihr hn hs⟩
    · next hx =>
      rw [List.cons_append, List.forall_mem_cons, List.forall_mem_append] at hs
      rw [if_neg hx]
      exact (legible_block ..).mpr ⟨readsBack_head hr hb hs.1, ihc hc hs.2.1, ihr hn hs.2.2⟩

end

end StyleValues
