import Lox.Number.Format
import Lox.Bytecode.Chunk

/-!
# Values and objects

A value is nil, a truth value, a number, or a reference to an object on the heap.  Objects are
strings, functions, closures, the captured variables closures share (upvalues), and functions
supplied by the host.

Every object has a size in bytes.  The sizes are part of what the language shows (statistics, the
moment of a collection), so they are a rule of their own: a fixed part per kind, and for a text
the room it takes, which is never less than fifteen bytes.
-/

namespace Lox

/-- The identity of an object.  Identities are never used twice. -/
abbrev ObjectId := Nat

/-- A value of the language. -/
inductive Value where
  | nil
  | bool (b : Bool)
  | number (x : Float)
  /-- An object, or no object at all: a reference that was never set. -/
  | object (ref : Option ObjectId)
  deriving DecidableEq

instance : Inhabited Value := ⟨.nil⟩

namespace Value

/-- The object a value keeps alive. -/
def reference? : Value → Option ObjectId
  | .object ref => ref
  | _ => none

/-- Nil and false are false in a condition; everything else is true. -/
def isFalsey : Value → Bool
  | .nil => true
  | .bool b => !b
  | .number _ | .object _ => false

/-- The language's equality: values of different types differ, numbers compare as numbers, and
objects are equal only to themselves. -/
def equals : Value → Value → Bool
  | .nil, .nil => true
  | .bool a, .bool b => a == b
  | .number x, .number y => x == y
  | .object a, .object b => a == b
  | _, _ => false

end Value

/-- A function on the heap. -/
structure FunctionObject where
  /-- Its name, empty for a script. -/
  name : Text
  arity : Int
  /-- How many variables a closure of it captures. -/
  captureCount : Nat
  chunk : Option Chunk

/-- The function a prototype describes. -/
def FunctionObject.ofPrototype (p : Prototype) : FunctionObject :=
  { name := p.name, arity := p.arity, captureCount := p.captures.size, chunk := p.chunk }

/-- A captured variable: on the stack as long as its scope lives, and then on its own. -/
inductive Upvalue where
  | onStack (slot : Nat)
  | closed (value : Value)
  deriving DecidableEq

/-- A function of the host: what a call looks up, not what it does. -/
structure NativeObject where
  name : Text
  /-- How many arguments it takes; any number if negative. -/
  arity : Int
  /-- Its place among the host's functions. -/
  entry : Nat
  deriving DecidableEq, Repr

/-- An object on the heap. -/
inductive Object where
  | string (text : Text)
  | function (f : FunctionObject)
  /-- A function with the variables it captured, each of which may still be unset. -/
  | closure (function : Option ObjectId) (upvalues : Array (Option ObjectId))
  | upvalue (u : Upvalue)
  | native (n : NativeObject)

/-- The kinds of objects. -/
inductive ObjectKind where
  | string
  | function
  | closure
  | upvalue
  | native
  deriving DecidableEq, Repr

namespace ObjectKind

/-- The names of the kinds, in the order of their tags. -/
def names : List String :=
  ["String", "Function", "Closure", "Upvalue", "Native"]

/-- The name of the kind with a given tag, which is a byte. -/
def nameOfTag (tag : UInt8) : Text :=
  Text.ofString (names.getD tag.toNat "Unknown")

/-- The name of a kind. -/
def name (k : ObjectKind) : Text :=
  nameOfTag k.ctorIdx.toUInt8

/-- What `typeof` says of an object of this kind. -/
def typeName : ObjectKind → Text
  | .string => "string"
  | .function | .closure | .native => "function"
  | .upvalue => "upvalue"

end ObjectKind

namespace Object

/-- The kind of an object. -/
def kind : Object → ObjectKind
  | .string _ => .string
  | .function _ => .function
  | .closure _ _ => .closure
  | .upvalue _ => .upvalue
  | .native _ => .native

/-- A closure that has captured nothing yet. -/
def newClosure (f : Option ObjectId) (captures : Nat) : Object :=
  .closure f (Array.replicate captures none)

/-- The room a text takes. -/
def textRoom (t : Text) : Nat :=
  max 15 t.length

/-- The size of an object in bytes. -/
def size : Object → Nat
  | .string t => 64 + textRoom t
  | .function f => 96 + textRoom f.name
  | .closure _ upvalues => 64 + 8 * upvalues.size
  | .upvalue _ => 72
  | .native n => 104 + textRoom n.name

/-- The objects an object keeps alive. -/
def references : Object → List ObjectId
  | .closure f upvalues => f.toList ++ upvalues.toList.filterMap id
  | .upvalue (.closed v) => v.reference?.toList
  | _ => []

end Object

/-- How a function prints. -/
def FunctionObject.toText (f : FunctionObject) : Text :=
  if f.name.isEmpty then "<script>" else "<fun " ++ f.name ++ ">"

end Lox
