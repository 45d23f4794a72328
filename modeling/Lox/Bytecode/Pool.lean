import Std.Data.TreeMap

/-!
# Pools

Instructions refer to constants and strings by their place in a pool.  A pool holds each item
once: adding one that is already there gives its old place.  The index makes that look-up
logarithmic; it is redundant, and a pool that was built by hand may hold an item twice, in which
case the index points at the first.
-/

namespace Lox

/-- Items with their places. -/
structure Pool (α : Type) [Ord α] where
  /-- The items in the order they were added. -/
  items : Array α
  /-- The place of each item. -/
  index : Std.TreeMap α Nat

namespace Pool

variable {α : Type} [Ord α]

/-- The pool without items. -/
def empty : Pool α :=
  { items := #[], index := ∅ }

instance : Inhabited (Pool α) := ⟨empty⟩

/-- How many items there are. -/
def size (p : Pool α) : Nat :=
  p.items.size

/-- The item at a place. -/
def get? (p : Pool α) (i : Nat) : Option α :=
  p.items[i]?

/-- Puts an item at the next place even if the pool has it. -/
def push (p : Pool α) (a : α) : Pool α :=
  let place := p.items.size
  { items := p.items.push a, index := p.index.insertIfNew a place }

/-- The place of an item, which is added if the pool does not have it. -/
def add (p : Pool α) (a : α) : Nat × Pool α :=
  match p.index[a]? with
  | some place => (place, p)
  | none => (p.items.size, p.push a)

/-- A pool with the given items at the given places. -/
def ofList (as : List α) : Pool α :=
  as.foldl push empty

end Pool

end Lox
