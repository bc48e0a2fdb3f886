import StyleValues.Substitution.Token

/-!
# Bindings

The names that a document has defined, in the order of their first
definition. A new definition of a name takes the place of the old one.
-/

set_option autoImplicit false

namespace StyleValues

/-- Where a value comes from. The value of an imported name is a placeholder. -/
inductive Origin where
  | document
  | imported (path : Text)
deriving DecidableEq, Repr

structure Binding where
  name : Text
  value : Text
  origin : Origin
deriving DecidableEq, Repr

namespace Binding

/-- Puts a binding in the place of the one with its name, or behind all others. -/
def insertInto (b : Binding) : List Binding → List Binding
  | [] => [b]
  | a :: rest => if a.name = b.name then b :: rest else a :: b.insertInto rest

theorem map_name_insertInto (b : Binding) (entries : List Binding) :
    (b.insertInto entries).map name =
      if b.name ∈ entries.map name then entries.map name else entries.map name ++ [b.name] := by
  induction entries with
  | nil => simp [insertInto]
  | cons a rest ih =>
    by_cases h : a.name = b.name
    · simp [insertInto, h]
    · have h' : ¬ b.name = a.name := fun e => h e.symm
      by_cases m : b.name ∈ rest.map name
      · simp_all [insertInto]
      · simp_all [insertInto]

end Binding

structure Bindings where
  entries : List Binding := []
  names_nodup : (entries.map Binding.name).Nodup := by exact List.nodup_nil
deriving Repr

namespace Bindings

def find? (bs : Bindings) (name : Text) : Option Binding :=
  bs.entries.find? fun b => b.name == name

def value? (bs : Bindings) (name : Text) : Option Text := (bs.find? name).map Binding.value

def isEmpty (bs : Bindings) : Bool := bs.entries.isEmpty

def size (bs : Bindings) : Nat := bs.entries.length

def define (bs : Bindings) (b : Binding) : Bindings where
  entries := b.insertInto bs.entries
  names_nodup := by
    rw [Binding.map_name_insertInto]
    split
    · exact bs.names_nodup
    · next h =>
      rw [List.nodup_append]
      refine ⟨bs.names_nodup, by simp, ?_⟩
      intro a ha c hc e
      simp only [List.mem_singleton] at hc
      exact h (by rw [← hc, ← e]; exact ha)

def mapValues (f : Text → Text) (bs : Bindings) : Bindings where
  entries := bs.entries.map fun b => { b with value := f b.value }
  names_nodup := by
    rw [List.map_map]
    exact bs.names_nodup

def resolve (bs : Bindings) (s : Text) : Text := substitute bs.value? s

end Bindings

end StyleValues
