import Std.Data.TreeMap
import Lox.Heap.Object

/-!
# The heap

The heap holds the objects by identity, counts what is allocated and freed, and keeps a table of
the strings it holds so that equal strings are one object.  An allocation never collects; whoever
owns references into the heap decides when to (`Lox.Heap.Collect`).

A new object takes the next identity, so an identity that was freed is not met again.
-/

namespace Lox

/-- When to collect. -/
structure HeapConfig where
  /-- The least size at which a collection is due. -/
  threshold : UInt64
  /-- After a collection the next one is due at this multiple of what is left. -/
  growth : UInt64
  /-- Whether a collection is always due. -/
  stress : Bool
  deriving DecidableEq, Repr

/-- A megabyte to begin with, then twice what is left. -/
def HeapConfig.standard : HeapConfig :=
  { threshold := 1024 * 1024, growth := 2, stress := false }

/-- Running totals. -/
structure HeapStats where
  /-- Bytes ever allocated. -/
  allocated : Nat
  /-- Bytes ever freed. -/
  freed : Nat
  /-- Objects now on the heap. -/
  objects : Nat
  /-- The most objects there ever were. -/
  peak : Nat
  collections : Nat
  /-- Strings in the table. -/
  interned : Nat
  deriving DecidableEq, Repr

/-- An object with what the heap notes about it. -/
structure Cell where
  object : Object
  /-- The bytes it was counted with when it was allocated. -/
  size : Nat
  /-- Whether the collection under way has reached it. -/
  marked : Bool

/-- The heap. -/
structure Heap where
  config : HeapConfig
  cells : Std.TreeMap ObjectId Cell
  /-- The identity of the next object. -/
  fresh : ObjectId
  /-- Bytes now allocated. -/
  bytes : Nat
  /-- A collection is due above this many bytes. -/
  dueAt : UInt64
  /-- Objects reached by the collection under way whose references are still to be followed. -/
  gray : List ObjectId
  /-- The strings on the heap, by their text. -/
  strings : Std.TreeMap Text ObjectId
  stats : HeapStats

namespace Heap

/-- An empty heap.  A growth of zero counts as one. -/
def new (config : HeapConfig) : Heap :=
  { config := { config with growth := if config.growth = 0 then 1 else config.growth }
    cells := ∅, fresh := 0, bytes := 0, dueAt := config.threshold, gray := [], strings := ∅
    stats :=
      { allocated := 0, freed := 0, objects := 0, peak := 0, collections := 0, interned := 0 } }

/-! ## Looking up -/

/-- The object with an identity, if it is on the heap. -/
def get? (h : Heap) (id : ObjectId) : Option Object :=
  (h.cells[id]?).map Cell.object

/-- The object a value refers to. -/
def deref? (h : Heap) (v : Value) : Option Object :=
  v.reference?.bind h.get?

/-- The text of a string value. -/
def string? (h : Heap) (v : Value) : Option Text :=
  match h.deref? v with
  | some (.string t) => some t
  | _ => none

/-- The function a closure was made from. -/
def function? (h : Heap) (ref : Option ObjectId) : Option FunctionObject :=
  match ref.bind h.get? with
  | some (.function f) => some f
  | _ => none

/-- How an object prints. -/
def objectText (h : Heap) : Object → Text
  | .string t => t
  | .function f => f.toText
  | .closure function _ =>
    match h.function? function with
    | some f => f.toText
    | none => "<closure>"
  | .upvalue _ => "<upvalue>"
  | .native n => "<fun (native) " ++ n.name ++ ">"

/-- How a value prints. -/
def valueText (h : Heap) (v : Value) : Text :=
  match v with
  | .nil => "nil"
  | .bool b => if b then "true" else "false"
  | .number x => Number.format x.toBits
  | .object _ =>
    match h.deref? v with
    | some o => h.objectText o
    | none => "nil"

/-- What `typeof` says of a value. -/
def typeName (h : Heap) (v : Value) : Text :=
  match v with
  | .nil => "nil"
  | .bool _ => "boolean"
  | .number _ => "number"
  | .object _ =>
    match h.deref? v with
    | some o => o.kind.typeName
    | none => "unknown"

/-! ## Allocating -/

/-- Puts an object on the heap. -/
def allocate (h : Heap) (o : Object) : ObjectId × Heap :=
  let id := h.fresh
  let size := o.size
  let objects := h.stats.objects + 1
  (id, { h with
    cells := h.cells.insert id { object := o, size, marked := false }
    fresh := id + 1
    bytes := h.bytes + size
    stats := { h.stats with
      allocated := h.stats.allocated + size
      objects
      peak := max h.stats.peak objects } })

/-- The one string object with a text, which is allocated if there is none. -/
def intern (h : Heap) (t : Text) : ObjectId × Heap :=
  match h.strings[t]? with
  | some id => (id, h)
  | none =>
    let (id, h) := h.allocate (.string t)
    let strings := h.strings.insert t id
    (id, { h with strings, stats := { h.stats with interned := strings.size } })

/-- Makes a closure of a function on the heap, or of none. -/
def allocateClosure (h : Heap) (function : Option ObjectId) : ObjectId × Heap :=
  h.allocate (.newClosure function ((h.function? function).elim 0 FunctionObject.captureCount))

/-- Changes an object in place; its identity and its counted size stay. -/
def update (h : Heap) (id : ObjectId) (o : Object) : Heap :=
  { h with cells := h.cells.modify id fun c => { c with object := o } }

/-- Takes a captured variable off the stack, with its value. -/
def closeUpvalue (h : Heap) (id : ObjectId) (v : Value) : Heap :=
  h.update id (.upvalue (.closed v))

/-- Gives a closure one of its captured variables. -/
def setUpvalue (h : Heap) (id : ObjectId) (place : Nat) (upvalue : Option ObjectId) : Heap :=
  match h.get? id with
  | some (.closure function upvalues) =>
    h.update id (.closure function (upvalues.setIfInBounds place upvalue))
  | _ => h

/-! ## Reporting -/

/-- The statistics as they are shown. -/
def statsText (h : Heap) : Text :=
  "\n=== Memory Statistics ===\n" ++
  "Total allocated: " ++ Text.ofNat h.stats.allocated ++ " bytes\n" ++
  "Total freed: " ++ Text.ofNat h.stats.freed ++ " bytes\n" ++
  "Current objects: " ++ Text.ofNat h.stats.objects ++ "\n" ++
  "Peak objects: " ++ Text.ofNat h.stats.peak ++ "\n" ++
  "Live bytes: " ++ Text.ofNat h.bytes ++ "\n" ++
  "Collections: " ++ Text.ofNat h.stats.collections ++ "\n" ++
  "Interned strings: " ++ Text.ofNat h.stats.interned ++ "\n" ++
  "Next collection at: " ++ Text.ofNat h.dueAt.toNat ++ " bytes\n" ++
  "========================\n"

end Heap

end Lox
