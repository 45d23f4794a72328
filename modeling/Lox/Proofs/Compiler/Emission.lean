import Lox.Proofs.Syntax
import Lox.Proofs.Compiler.Steps

/-!
# The code of a tree

Which code a syntax tree has, said without tokens, errors or patching.  A `Context` is what the
code of a phrase depends on: the pools, the visible variables and the captures of the function
being compiled and of the functions around it.  `Expr.Emits g es c g'` says that in the context
`g` the expressions `es` have the code `c`, one after another, and leave the context `g'`; it
holds only if no static rule is broken and no limit is exceeded on the way.  `Stmt.Emits` says
the same of statements.

Jumps appear with their final distances: each is the size of the code it passes over.

The relations leave the source lines of instructions open, because trees do not record lines.
-/

namespace Lox.Compiler

open FunctionScope

/-! ## Contexts -/

/-- A function under compilation without the code written for it. -/
def FunctionScope.bare (f : FunctionScope) : FunctionScope :=
  { f with chunk := { f.chunk with code := #[], lines := #[] } }

/-- What the code of a phrase depends on. -/
structure Context where
  /-- The innermost function, without its code. -/
  scope : FunctionScope
  /-- The functions around it, inside out, without their code. -/
  enclosing : List FunctionScope

/-- The context in which a script is compiled. -/
def Context.script : Context :=
  { scope := .new .script [], enclosing := [] }

/-- The context of a state. -/
def State.context (s : State) : Context :=
  { scope := s.scope.bare, enclosing := s.enclosing.map bare }

namespace Context

/-- The context with another chunk for the innermost function. -/
def mapChunk (g : Context) (f : Chunk → Chunk) : Context :=
  { g with scope := { g.scope with chunk := f g.scope.chunk } }

/-- The place of a number in the pool, and the context in which it is there. -/
def addConstant (g : Context) (bits : UInt64) : Nat × Context :=
  ((g.scope.chunk.addConstant bits).1, g.mapChunk fun c => (c.addConstant bits).2)

/-- The place of a text in the pool, and the context in which it is there. -/
def addString (g : Context) (t : Text) : Nat × Context :=
  ((g.scope.chunk.addString t).1, g.mapChunk fun c => (c.addString t).2)

/-- The place of a function, and the context in which it is there. -/
def addFunction (g : Context) (p : Prototype) : Nat × Context :=
  ((g.scope.chunk.addFunction p).1, g.mapChunk fun c => (c.addFunction p).2)

/-! ## Variables -/

/-- How a variable is reached: a local that can be read already, a variable of an enclosing
function, or a global. -/
inductive Resolves : Context → Text → Access → Context → Prop
  | ofLocal {g : Context} {name : Text} {slot : Nat} {l : Local} :
      findLocal name g.scope.locals = some (slot, l) → l.depth.isSome →
      Resolves g name { read := .getLocal, write := .setLocal, operand := slot } g
  | ofCapture {g : Context} {name : Text} {i : Nat} {scope : FunctionScope}
      {enclosing : List FunctionScope} :
      findLocal name g.scope.locals = none →
      g.scope.capture? name g.enclosing = some (i, scope, enclosing, []) →
      Resolves g name { read := .getUpvalue, write := .setUpvalue, operand := i }
        { scope, enclosing }
  | ofGlobal {g : Context} {name : Text} :
      findLocal name g.scope.locals = none → g.scope.capture? name g.enclosing = none →
      (g.addString name).1 ≤ Chunk.maxShort →
      Resolves g name
        { read := .getGlobal, write := .setGlobal, operand := (g.addString name).1 }
        (g.addString name).2

lemma Resolves.operandWidth {g g' : Context} {name : Text} {a : Access} (h : g.Resolves name a g') :
    a.read.operandWidth = 2 ∧ a.write.operandWidth = 2 := by
  cases h <;> exact ⟨rfl, rfl⟩

/-- A new local, not to be read yet. -/
def declare (g : Context) (name : Text) : Context :=
  { g with scope := { g.scope with
      locals := { name, depth := none, captured := false } :: g.scope.locals } }

/-- A local of this name can be declared. -/
structure Admits (g : Context) (name : Text) : Prop where
  fresh : (g.scope.locals.takeWhile (Local.inBlock g.scope.depth)).any (·.name = name) = false
  room : g.scope.locals.length < maxLocals

/-- The newest local can be read from now on.  At the top level there are only globals. -/
def complete (g : Context) : Context :=
  match g.scope.depth, g.scope.locals with
  | 0, _ | _, [] => g
  | depth, l :: older =>
    { g with scope := { g.scope with locals := { l with depth := some depth } :: older } }

/-- A variable is about to be declared: a local in a block, and at the top level a global, for
which there is an operand. -/
inductive Names : Context → Text → Option Nat → Context → Prop
  | ofLocal {g : Context} {name : Text} :
      0 < g.scope.depth → g.Admits name → Names g name none (g.declare name)
  | ofGlobal {g : Context} {name : Text} :
      g.scope.depth = 0 → (g.addString name).1 ≤ Chunk.maxShort →
      Names g name (some (g.addString name).1) (g.addString name).2

lemma Names.depth_pos {g g' : Context} {name : Text} {global? : Option Nat}
    (h : g.Names name global? g') : 0 < g.scope.depth ↔ global? = none := by
  cases h with
  | ofLocal h => simp [h]
  | ofGlobal h => simp [h]

lemma Names.eq_declare {g g' : Context} {name : Text} (h : g.Names name none g') :
    g.Admits name ∧ g' = g.declare name := by
  cases h with
  | ofLocal _ hadmits => exact ⟨hadmits, rfl⟩

/-! ## Blocks and functions -/

def beginScope (g : Context) : Context :=
  { g with scope := { g.scope with depth := g.scope.depth + 1 } }

/-- The locals that leave with the innermost block. -/
def leaving (g : Context) : List Local :=
  (g.scope.locals.span (Local.inBlock g.scope.depth)).1

def endScope (g : Context) : Context :=
  { g with scope := { g.scope with
      depth := g.scope.depth - 1
      locals := (g.scope.locals.span (Local.inBlock g.scope.depth)).2 } }

/-- The context in which the parameters of a function are declared. -/
def enter (g : Context) (name : Text) : Context :=
  { scope := { FunctionScope.new .function name with depth := 1 }
    enclosing := g.scope :: g.enclosing }

/-- A function takes one more parameter. -/
def countParameter (g : Context) : Context :=
  { g with scope := { g.scope with arity := g.scope.arity + 1 } }

/-- The parameters of a function are declared one after another. -/
inductive Takes : Context → List Text → Context → Prop
  | nil {g : Context} : Takes g [] g
  | cons {g g' : Context} {p : Text} {ps : List Text} :
      g.countParameter.scope.arity ≤ maxArguments → g.countParameter.Admits p →
      Takes (g.countParameter.declare p).complete ps g' → Takes g (p :: ps) g'

end Context

/-- The instructions that drop locals. -/
def dropCode (ls : List Local) (line : UInt32) : Code :=
  ls.map fun l => (⟨if l.captured then .closeUpvalue else .pop, 0⟩, line)

/-- The instruction that defines a global; a local needs none. -/
def defineCode (global? : Option Nat) (line : UInt32) : Code :=
  match global? with
  | some i => [(⟨.defineGlobal, i⟩, line)]
  | none => []

/-- The end of every function: a return of nil. -/
def returnCode (line : UInt32) : Code :=
  [(⟨.loadNil, 0⟩, line), (⟨.ret, 0⟩, line)]

/-- The finished function. -/
def FunctionScope.prototypeOf (f : FunctionScope) (c : Code) (line : UInt32) : Prototype :=
  { f with chunk := f.chunk.append (c ++ returnCode line) }.toPrototype

end Lox.Compiler

namespace Lox

open Compiler

/-! ## Expressions -/

/-- In the context `g` the expressions have the code `c`, which pushes their values, and leave
the context `g'`. -/
inductive Expr.Emits : Context → List Expr → Code → Context → Prop
  | nil {g : Context} : Emits g [] [] g
  | cons {g g' g'' : Context} {e e' : Expr} {es : List Expr} {c d : Code} :
      Emits g [e] c g' → Emits g' (e' :: es) d g'' → Emits g (e :: e' :: es) (c ++ d) g''
  | literal {g : Context} {l : Literal} {line : UInt32} :
      Emits g [.literal l] [(⟨l.opcode, 0⟩, line)] g
  | number {g : Context} {digits : Text} {bits : UInt64} {line : UInt32} :
      Number.readLiteral? digits = some bits → (g.addConstant bits).1 ≤ Chunk.maxShort →
      Emits g [.number digits] [(⟨.loadConstant, (g.addConstant bits).1⟩, line)]
        (g.addConstant bits).2
  | string {g : Context} {t : Text} {line : UInt32} :
      (g.addString t).1 ≤ Chunk.maxShort →
      Emits g [.string t] [(⟨.loadString, (g.addString t).1⟩, line)] (g.addString t).2
  | var {g g' : Context} {name : Text} {a : Access} {line : UInt32} :
      g.Resolves name a g' → Emits g [.var name] [(⟨a.read, a.operand⟩, line)] g'
  | assign {g g' g'' : Context} {name : Text} {a : Access} {e : Expr} {c : Code} {line : UInt32} :
      g.Resolves name a g' → Emits g' [e] c g'' →
      Emits g [.assign name e] (c ++ [(⟨a.write, a.operand⟩, line)]) g''
  | unary {g g' : Context} {u : UnaryOperator} {e : Expr} {c : Code} {line : UInt32} :
      Emits g [e] c g' → Emits g [.unary u e] (c ++ [(⟨u.opcode, 0⟩, line)]) g'
  | binary {g g' g'' : Context} {b : BinaryOperator} {l r : Expr} {c d : Code} {line : UInt32} :
      Emits g [l] c g' → Emits g' [r] d g'' →
      Emits g [.binary b l r] (c ++ d ++ [(⟨b.opcode, 0⟩, line)]) g''
  | and {g g' g'' : Context} {l r : Expr} {c d : Code} {line line' : UInt32} :
      Emits g [l] c g' → Emits g' [r] d g'' → 1 + d.size ≤ Chunk.maxShort →
      Emits g [.and l r]
        (c ++ (⟨.jumpIfFalse, 1 + d.size⟩, line) :: (⟨.pop, 0⟩, line') :: d) g''
  | or {g g' g'' : Context} {l r : Expr} {c d : Code} {line line' line'' : UInt32} :
      Emits g [l] c g' → Emits g' [r] d g'' → 1 + d.size ≤ Chunk.maxShort →
      Emits g [.or l r]
        (c ++ (⟨.jumpIfFalse, 3⟩, line) :: (⟨.jump, 1 + d.size⟩, line') :: (⟨.pop, 0⟩, line'') :: d)
        g''
  | call {g g' : Context} {f : Expr} {args : List Expr} {c : Code} {line : UInt32} :
      Emits g (f :: args) c g' → args.length ≤ maxArguments →
      Emits g [.call f args] (c ++ [(⟨.call, args.length⟩, line)]) g'

lemma Expr.Emits.cons_list {g g' g'' : Context} {e : Expr} {es : List Expr} {c d : Code}
    (h : Emits g [e] c g') (h' : Emits g' es d g'') : Emits g (e :: es) (c ++ d) g'' := by
  cases es with
  | nil =>
    cases h'
    rwa [List.append_nil]
  | cons e' es => exact .cons h h'

/-! ## Statements -/

/-- The condition of a for loop: its code ends with the jump out of the loop, over `after` bytes.
Without a condition there is no jump. -/
inductive Expr.EmitsCondition : Context → Option Expr → (after : Nat) → Code → Context → Prop
  | none {g : Context} {after : Nat} : EmitsCondition g none after [] g
  | some {g g' : Context} {e : Expr} {after : Nat} {c : Code} {line line' : UInt32} :
      Emits g [e] c g' → 1 + after ≤ Chunk.maxShort →
      EmitsCondition g (some e) after
        (c ++ [(⟨.jumpIfFalse, 1 + after⟩, line), (⟨.pop, 0⟩, line')]) g'

/-- The increment of a for loop: the body jumps over it, and it jumps back to the condition,
whose code takes `before` bytes.  The last number is how far behind the body's beginning the
body has to jump back. -/
inductive Expr.EmitsIncrement :
    Context → Option Expr → (before : Nat) → Code → Context → (back : Nat) → Prop
  | none {g : Context} {before : Nat} : EmitsIncrement g none before [] g before
  | some {g g' : Context} {e : Expr} {before : Nat} {c : Code} {line line' line'' : UInt32} :
      Emits g [e] c g' → c.size + 4 ≤ Chunk.maxShort → before + c.size + 7 ≤ Chunk.maxShort →
      EmitsIncrement g (some e) before
        ((⟨.jump, c.size + 4⟩, line) :: c ++
          [(⟨.pop, 0⟩, line'), (⟨.loop, before + c.size + 7⟩, line'')]) g' (c.size + 4)

/-- The code after the loop of a for statement: a jump out of the loop leaves the condition's
value on the stack. -/
def exitCode (condition : Option Expr) (line : UInt32) : Code :=
  match condition with
  | some _ => [(⟨.pop, 0⟩, line)]
  | none => []

/-- In the context `g` the statement has the code `c` and leaves the context `g'`. -/
inductive Stmt.Emits : Context → Stmt → Code → Context → Prop
  | skip {g : Context} : Emits g .skip [] g
  | seq {g g' g'' : Context} {s rest : Stmt} {c d : Code} :
      Emits g s c g' → Emits g' rest d g'' → Emits g (.seq s rest) (c ++ d) g''
  | declareVar {g g' g'' : Context} {name : Text} {global? : Option Nat} {e : Expr} {c : Code}
      {line : UInt32} :
      g.Names name global? g' → Expr.Emits g' [e] c g'' →
      Emits g (.declareVar name e) (c ++ defineCode global? line) g''.complete
  | declareFun {g g₁ g₂ g₃ : Context} {name : Text} {global? : Option Nat} {ps : List Text}
      {body : Stmt} {c : Code} {outer : FunctionScope} {rest : List FunctionScope}
      {line line' line'' : UInt32} :
      g.Names name global? g₁ → (g₁.complete.enter name).Takes ps g₂ →
      Emits g₂ body c g₃ → g₃.enclosing = outer :: rest →
      outer.chunk.functions.size ≤ Chunk.maxShort →
      Emits g (.declareFun name ps body)
        ((⟨.closure, outer.chunk.functions.size⟩, line) :: defineCode global? line')
        (Context.addFunction ⟨outer, rest⟩ (g₃.scope.prototypeOf c line'')).2.complete
  | print {g g' : Context} {e : Expr} {c : Code} {line : UInt32} :
      Expr.Emits g [e] c g' → Emits g (.print e) (c ++ [(⟨.print, 0⟩, line)]) g'
  | discard {g g' : Context} {e : Expr} {c : Code} {line : UInt32} :
      Expr.Emits g [e] c g' → Emits g (.discard e) (c ++ [(⟨.pop, 0⟩, line)]) g'
  | echo {g g' : Context} {e : Expr} {c : Code} {line : UInt32} :
      Expr.Emits g [e] c g' → Emits g (.echo e) (c ++ [(⟨.print, 0⟩, line)]) g'
  | branch {g g₁ g₂ g₃ : Context} {e : Expr} {yes no : Stmt} {c d d' : Code}
      {l₁ l₂ l₃ l₄ : UInt32} :
      Expr.Emits g [e] c g₁ → Emits g₁ yes d g₂ → Emits g₂ no d' g₃ →
      d.size + 4 ≤ Chunk.maxShort → 1 + d'.size ≤ Chunk.maxShort →
      Emits g (.branch e yes no)
        (c ++ (⟨.jumpIfFalse, d.size + 4⟩, l₁) :: (⟨.pop, 0⟩, l₂) :: d ++
          (⟨.jump, 1 + d'.size⟩, l₃) :: (⟨.pop, 0⟩, l₄) :: d') g₃
  | whileLoop {g g₁ g₂ : Context} {e : Expr} {body : Stmt} {c d : Code} {l₁ l₂ l₃ l₄ : UInt32} :
      Expr.Emits g [e] c g₁ → Emits g₁ body d g₂ → d.size + 4 ≤ Chunk.maxShort →
      c.size + d.size + 7 ≤ Chunk.maxShort →
      Emits g (.whileLoop e body)
        (c ++ (⟨.jumpIfFalse, d.size + 4⟩, l₁) :: (⟨.pop, 0⟩, l₂) :: d ++
          [(⟨.loop, c.size + d.size + 7⟩, l₃), (⟨.pop, 0⟩, l₄)]) g₂
  | forLoop {g g₁ g₂ g₃ g₄ : Context} {init body : Stmt} {condition increment : Option Expr}
      {c₁ c₂ c₃ c₄ : Code} {back : Nat} {l₁ l₂ l₃ : UInt32} :
      Emits g.beginScope init c₁ g₁ →
      Expr.EmitsCondition g₁ condition (c₃.size + c₄.size + 3) c₂ g₂ →
      Expr.EmitsIncrement g₂ increment c₂.size c₃ g₃ back → Emits g₃ body c₄ g₄ →
      back + c₄.size + 3 ≤ Chunk.maxShort →
      Emits g (.forLoop init condition increment body)
        (c₁ ++ c₂ ++ c₃ ++ c₄ ++ (⟨.loop, back + c₄.size + 3⟩, l₁) :: exitCode condition l₂ ++
          dropCode g₄.leaving l₃) g₄.endScope
  | ret {g g' : Context} {e : Expr} {c : Code} {line : UInt32} :
      g.scope.kind = .function → Expr.Emits g [e] c g' →
      Emits g (.ret e) (c ++ [(⟨.ret, 0⟩, line)]) g'
  | block {g g' : Context} {body : Stmt} {c : Code} {line : UInt32} :
      Emits g.beginScope body c g' →
      Emits g (.block body) (c ++ dropCode g'.leaving line) g'.endScope

end Lox
