import StyleValues.Interchange.Entries
import StyleValues.Interchange.Placeholder
import StyleValues.Interchange.Selector

/-!
# Import blocks

The names imported during one run are collected by path, in the order in
which the paths are first used. A path that the sheet already imports from
keeps its block; every other path gets a new one at the statement that first
used it.
-/

set_option autoImplicit false

namespace StyleValues

/-- One line of an import block: a placeholder and the name it stands for. -/
structure ImportEntry where
  placeholder : Text
  source : Text
deriving DecidableEq, Repr

structure ImportBlock where
  path : Text
  entries : List ImportEntry := []
  /-- The top-level index of the block that the sheet already has. -/
  existing : Option Nat
  /-- The top-level index of the statement that first used the path. -/
  anchor : Nat
deriving DecidableEq, Repr

namespace ImportBlock

/-- Adds an entry to the block with that path, or to `fresh` behind all others. -/
def addEntry (fresh : ImportBlock) (entry : ImportEntry) : List ImportBlock → List ImportBlock
  | [] => [{ fresh with entries := fresh.entries ++ [entry] }]
  | b :: rest =>
    if b.path = fresh.path then { b with entries := b.entries ++ [entry] } :: rest
    else b :: fresh.addEntry entry rest

def declarations (b : ImportBlock) : List (Text × Text) :=
  b.entries.map fun entry => (entry.placeholder, entry.source)

def rule (b : ImportBlock) : Node := (Node.rule (importSelector b.path) []).addEntries b.declarations

end ImportBlock

structure Imports where
  allocator : Allocator
  /-- The paths of the import blocks of the sheet with their top-level indices. -/
  existing : List (Text × Nat) := []
  blocks : List ImportBlock := []
deriving Repr

namespace Imports

def existingBlock? : Node × Nat → Option (Text × Nat)
  | (n, i) => (n.selector?.bind importPath?).map fun path => (path, i)

def takenIn (n : Node) : List Text :=
  if (n.selector?.bind importPath?).isSome then
    (declarationsIn (n.children?.getD [])).map Prod.fst
  else []

/-- The state before a run over a sheet with those top-level nodes. -/
def ofNodes (stem : Text) (nodes : List Node) : Imports where
  allocator := { stem, taken := nodes.flatMap takenIn }
  existing := nodes.zipIdx.filterMap existingBlock?

def allocate (r : Imports) (name : Text) : Text × Imports :=
  let token := r.allocator.allocate name
  (token.1, { r with allocator := token.2 })

def register (r : Imports) (path source name : Text) (anchor : Nat) : Text × Imports :=
  let token := r.allocator.allocate name
  (token.1,
    { r with
      allocator := token.2
      blocks := ImportBlock.addEntry { path, existing := r.existing.lookup path, anchor }
        ⟨token.1, source⟩ r.blocks })

def extendExisting (r : Imports) (nodes : List Node) : List Node :=
  r.blocks.foldl (fun nodes b =>
    match b.existing with
    | some i => nodes.modify i (Node.addEntries b.declarations)
    | none => nodes) nodes

def newBlocks (r : Imports) : List ImportBlock := r.blocks.filter fun b => b.existing.isNone

def newRules (r : Imports) : List (Nat × Node) := r.newBlocks.map fun b => (b.anchor, b.rule)

end Imports

end StyleValues
