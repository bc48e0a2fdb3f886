import Mathlib.Data.List.Forall2
import StyleValues.Proofs.Sheet.Removal

/-!
# Embeddings of forests

A forest is embedded in another one if every node of it has a node of the same
kind there, in the same order and inside the node that its own block became.
The other forest may have more nodes. Layout is left out of account.
-/

set_option autoImplicit false

namespace StyleValues

/-- Every node of the first forest has one in the second, related by `L` if it is a leaf
and by `H` in its head if it is a block. -/
inductive Embeds (L : Leaf → Leaf → Prop) (H : Head → Head → Prop) : List Node → List Node → Prop
  | nil : Embeds L H [] []
  | added {ms ns : List Node} (n : Node) : Embeds L H ms ns → Embeds L H ms (n :: ns)
  | leaf {c d : Leaf} {l k : Layout} {ms ns : List Node} :
    L c d → Embeds L H ms ns → Embeds L H (.leaf c l :: ms) (.leaf d k :: ns)
  | block {g h : Head} {ms' ns' ms ns : List Node} {l k : Layout} :
    H g h → Embeds L H ms' ns' → Embeds L H ms ns →
      Embeds L H (.block g ms' l :: ms) (.block h ns' k :: ns)

inductive Node.Matches (L : Leaf → Leaf → Prop) (H : Head → Head → Prop) : Node → Node → Prop
  | leaf {c d : Leaf} {l k : Layout} : L c d → Node.Matches L H (.leaf c l) (.leaf d k)
  | block {g h : Head} {ms ns : List Node} {l k : Layout} :
    H g h → Node.Matches L H (.block g ms l) (.block h ns k)

namespace Embeds

variable {L : Leaf → Leaf → Prop} {H : Head → Head → Prop}

theorem of_nil (ns : List Node) : Embeds L H [] ns := by
  induction ns with
  | nil => exact .nil
  | cons n ns ih => exact .added n ih

theorem refl (hL : ∀ c, L c c) (hH : ∀ h, H h h) (ns : List Node) : Embeds L H ns ns := by
  induction ns using forestInduction with
  | nil => exact .nil
  | leaf content layout rest ih => exact .leaf (hL content) ih
  | block head children layout rest ihc ihr => exact .block (hH head) ihc ihr

theorem append {ms ns ms' ns' : List Node} (h : Embeds L H ms ns) (h' : Embeds L H ms' ns') :
    Embeds L H (ms ++ ms') (ns ++ ns') := by
  induction h with
  | nil => exact h'
  | added n _ ih => exact .added n ih
  | leaf hc _ ih => exact .leaf hc ih
  | block hh hi _ _ ih => exact .block hh hi ih

theorem mono {L' : Leaf → Leaf → Prop} {H' : Head → Head → Prop} (hL : ∀ c d, L c d → L' c d)
    (hH : ∀ g h, H g h → H' g h) {ms ns : List Node} (h : Embeds L H ms ns) :
    Embeds L' H' ms ns := by
  induction h with
  | nil => exact .nil
  | added n _ ih => exact .added n ih
  | leaf hc _ ih => exact .leaf (hL _ _ hc) ih
  | block hh _ _ ihc ih => exact .block (hH _ _ hh) ihc ih

theorem trans (hL : ∀ c d e, L c d → L d e → L c e) (hH : ∀ f g h, H f g → H g h → H f h)
    {ms ns ks : List Node} (h : Embeds L H ms ns) (h' : Embeds L H ns ks) : Embeds L H ms ks := by
  induction h' generalizing ms with
  | nil => exact h
  | added n _ ih => exact .added n (ih h)
  | leaf hc _ ih =>
    cases h with
    | added _ h => exact .added _ (ih h)
    | leaf hb h => exact .leaf (hL _ _ _ hb hc) (ih h)
  | block hh _ _ ihc ih =>
    cases h with
    | added _ h => exact .added _ (ih h)
    | block hg hc h => exact .block (hH _ _ _ hg hh) (ihc hc) (ih h)

theorem congr_layout {ms ns ks : List Node} (h : Embeds L H ms ns)
    (e : ns.map (Node.withLayout {}) = ks.map (Node.withLayout {})) : Embeds L H ms ks := by
  induction h generalizing ks with
  | nil =>
    rw [List.map_eq_nil_iff.mp e.symm]
    exact .nil
  | added n _ ih =>
    obtain ⟨k, ks', rfl, _, ht⟩ := List.map_eq_cons_iff.mp e.symm
    exact .added k (ih ht.symm)
  | leaf hc _ ih =>
    obtain ⟨k, ks', rfl, hk, ht⟩ := List.map_eq_cons_iff.mp e.symm
    cases k with
    | leaf content layout => cases hk; exact .leaf hc (ih ht.symm)
    | block head children layout => cases hk
  | block hh hi _ _ ih =>
    obtain ⟨k, ks', rfl, hk, ht⟩ := List.map_eq_cons_iff.mp e.symm
    cases k with
    | leaf content layout => cases hk
    | block head children layout => cases hk; exact .block hh hi (ih ht.symm)

theorem prune {name : Text}
    (hL : ∀ c d l k, L c d → (Node.leaf c l).isAtRule name = (Node.leaf d k).isAtRule name)
    (hH : ∀ g h ms ns l k, H g h →
      (Node.block g ms l).isAtRule name = (Node.block h ns k).isAtRule name)
    {ms ns : List Node} (h : Embeds L H ms ns) :
    Embeds L H (StyleValues.prune name ms) (StyleValues.prune name ns) := by
  induction h with
  | nil => exact .nil
  | added n _ ih =>
    rw [StyleValues.prune]
    split
    · exact ih
    · exact .added _ ih
  | @leaf c d l k ms ns hc _ ih =>
    rw [StyleValues.prune, StyleValues.prune, hL c d l k hc]
    by_cases hd : (Node.leaf d k).isAtRule name
    · rw [if_pos hd, if_pos hd]
      exact ih
    · rw [if_neg hd, if_neg hd]
      exact .leaf hc ih
  | @block g h ms' ns' ms ns l k hh _ _ ihc ih =>
    rw [StyleValues.prune, StyleValues.prune, hH g h ms' ns' l k hh]
    by_cases hd : (Node.block h ns' k).isAtRule name
    · rw [if_pos hd, if_pos hd]
      exact ih
    · rw [if_neg hd, if_neg hd]
      exact .block hh ihc ih

theorem sublistForall₂_append {α β : Type} {R : α → β → Prop} {as as' : List α} {bs bs' : List β}
    (h : List.SublistForall₂ R as bs) (h' : List.SublistForall₂ R as' bs') :
    List.SublistForall₂ R (as ++ as') (bs ++ bs') := by
  obtain ⟨cs, hc, hs⟩ := List.sublistForall₂_iff.mp h
  obtain ⟨cs', hc', hs'⟩ := List.sublistForall₂_iff.mp h'
  exact List.sublistForall₂_iff.mpr ⟨cs ++ cs', List.rel_append hc hc', hs.append hs'⟩

theorem preorder {ms ns : List Node} (h : Embeds L H ms ns) :
    List.SublistForall₂ (Node.Matches L H) (StyleValues.preorder ms) (StyleValues.preorder ns) := by
  induction h with
  | nil => exact .nil
  | added n _ ih =>
    rw [StyleValues.preorder]
    exact sublistForall₂_append .nil ih
  | leaf hc _ ih => exact .cons (.leaf hc) ih
  | block hh _ _ ihc ih =>
    rw [StyleValues.preorder, StyleValues.preorder, Node.preorder, Node.preorder]
    exact .cons (.block hh) (sublistForall₂_append ihc ih)

theorem outside {name : Text} {ms ns : List Node} (h : Embeds L H (StyleValues.prune name ms) ns) :
    List.SublistForall₂ (Node.Matches L H) (StyleValues.outside name ms) (StyleValues.preorder ns) := by
  have hm : ∀ m n, Node.Matches L H (m.pruned name) n → Node.Matches L H m n := by
    intro m n hn
    rcases m with ⟨content, layout⟩ | ⟨head, children, layout⟩
    · exact hn
    · cases hn with
      | block hh => exact .block hh
  have hp := h.preorder
  rw [preorder_prune, List.sublistForall₂_map_left_iff] at hp
  obtain ⟨ks, hk, hs⟩ := List.sublistForall₂_iff.mp hp
  exact List.sublistForall₂_iff.mpr ⟨ks, hk.imp hm, hs⟩

end Embeds

end StyleValues
