import Lox.Heap.Basic

/-!
# Garbage collection

A collection marks what is reachable and frees the rest.  The roots are marked first; a marked
object whose references have not been followed yet is gray, and tracing follows the references
of gray objects until there are none.  Each object turns gray at most once, so the number of
objects bounds the tracing.  Strings that were not reached leave the string table, and the sweep
frees every unmarked object and clears the marks of the others.
-/

namespace Lox.Heap

/-! ## Marking -/

/-- Marks an object and makes it gray, unless it is marked or not there. -/
def mark (h : Heap) (id : ObjectId) : Heap :=
  match h.cells[id]? with
  | some c =>
    if c.marked then h
    else { h with cells := h.cells.insert id { c with marked := true }, gray := id :: h.gray }
  | none => h

/-- Marks several objects. -/
def markAll (h : Heap) (ids : List ObjectId) : Heap :=
  ids.foldl mark h

/-- The objects that the object with an identity keeps alive. -/
def referencesOf (h : Heap) (id : ObjectId) : List ObjectId :=
  (h.get? id).elim [] Object.references

/-- Follows the references of at most `bound` gray objects. -/
def traceReferences : (bound : Nat) → Heap → Heap
  | 0, h => h
  | bound + 1, h =>
    match h.gray with
    | [] => h
    | id :: gray =>
      traceReferences bound ({ h with gray }.markAll (h.referencesOf id))

/-! ## Freeing -/

/-- Whether the collection under way has reached an object. -/
def isMarked (h : Heap) (id : ObjectId) : Bool :=
  (h.cells[id]?).any Cell.marked

/-- Drops the strings that were not reached from the table. -/
def dropUnmarkedStrings (h : Heap) : Heap :=
  let strings := h.strings.filter fun _ id => h.isMarked id
  { h with strings, stats := { h.stats with interned := strings.size } }

/-- The bytes of all unmarked objects. -/
def unmarkedBytes (h : Heap) : Nat :=
  h.cells.foldl (fun n _ c => if c.marked then n else n + c.size) 0

/-- Frees the unmarked objects and clears the marks of the others. -/
def sweep (h : Heap) : Heap :=
  let cells := h.cells.filterMap fun _ c => if c.marked then some { c with marked := false } else none
  let bytes := h.unmarkedBytes
  { h with
    cells
    bytes := h.bytes - bytes
    stats := { h.stats with
      freed := h.stats.freed + bytes
      objects := h.stats.objects - (h.cells.size - cells.size) } }

/-! ## Collecting -/

/-- Sets when the next collection is due.  The product wraps at `2 ^ 64`. -/
def schedule (h : Heap) : Heap :=
  { h with dueAt := max h.config.threshold (h.bytes.toUInt64 * h.config.growth) }

/-- Frees every object that cannot be reached from the roots. -/
def collect (h : Heap) (roots : List ObjectId) : Heap :=
  let h := h.markAll roots
  let h := (traceReferences h.cells.size h).dropUnmarkedStrings.sweep.schedule
  { h with stats := { h.stats with collections := h.stats.collections + 1 } }

/-- Whether a collection is due. -/
def isDue (h : Heap) : Bool :=
  h.config.stress || h.dueAt.toNat < h.bytes

/-- Collects if a collection is due, and says whether it was. -/
def collectIfDue (h : Heap) (roots : List ObjectId) : Bool × Heap :=
  if h.isDue then (true, h.collect roots) else (false, h)

end Lox.Heap
