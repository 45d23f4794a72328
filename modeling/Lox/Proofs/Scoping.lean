import Lox.Compiler.Expression
import Lox.Proofs.Bytecode.Layout
import Lox.Proofs.Syntax

/-!
# Lexical scoping

Which declaration a name refers to, said of trees alone.  `Visible` lists the names that can be used
at a point of a program, innermost first, for the function there and for each function around it.
`Visible.binding` looks a name up, and the answer is a slot of the function itself, a slot of a
function around it, or a global.

`Stmt.actions` writes down what the code of a tree has to do, instruction by instruction, with the
binding of every name in it.  It also says of each local whether a function inside its scope uses it
(`Stmt.captured`), because such a local has to be closed where its block ends.

`Prototype.Performs` compares this with bytecode.  The bytecode names the variable of another function
by an index into the captures of its own function, and these lead outward from function to function
(`follow`).
-/

namespace Lox

open Compiler

/-! ## Names -/

/-- What a name refers to. -/
inductive Binding where
  /-- A local of the function that uses the name. -/
  | here (slot : Nat)
  /-- A local of a function around it.  The one directly around it is zero levels up. -/
  | outer (up slot : Nat)
  | global
  deriving DecidableEq, Repr

/-- The names that can be used at a point of a program. -/
structure Visible where
  /-- The locals of the function, innermost first. -/
  locals : List Text
  /-- The locals of the functions around it, inside out. -/
  outer : List (List Text)
  /-- Whether this is the top level, where declarations are global. -/
  top : Bool

/-- The slot of the innermost of these locals that has the name.  Slot zero belongs to the callee. -/
def slot? (name : Text) : List Text → Option Nat
  | [] => none
  | n :: older => if n = name then some (older.length + 1) else slot? name older

/-- The innermost of these functions that has a local of the name, and its slot. -/
def outward? (name : Text) : List (List Text) → Option (Nat × Nat)
  | [] => none
  | names :: outer =>
    match slot? name names with
    | some slot => some (0, slot)
    | none => (outward? name outer).map fun (up, slot) => (up + 1, slot)

namespace Visible

/-- At the beginning of a script there are only globals. -/
def script : Visible :=
  { locals := [], outer := [], top := true }

/-- The innermost visible declaration of a name. -/
def binding (v : Visible) (name : Text) : Binding :=
  match slot? name v.locals with
  | some slot => .here slot
  | none =>
    match outward? name v.outer with
    | some (up, slot) => .outer up slot
    | none => .global

/-- Behind the declaration of a name. -/
def declare (v : Visible) (name : Text) : Visible :=
  if v.top then v else { v with locals := name :: v.locals }

/-- At the beginning of a block. -/
def block (v : Visible) : Visible :=
  { v with top := false }

/-- At the beginning of the body of a function. -/
def enter (v : Visible) (parameters : List Text) : Visible :=
  { locals := parameters.reverse, outer := v.locals :: v.outer, top := false }

end Visible

/-- Behind a statement.  What a block declares is gone. -/
def Stmt.after (v : Visible) : Stmt → Visible
  | .seq first rest => rest.after (first.after v)
  | .declareVar name _ | .declareFun name _ _ => v.declare name
  | _ => v

/-! ## Actions -/

/-- What one instruction does. -/
inductive Action where
  /-- Anything that has nothing to do with names. -/
  | plain (op : Opcode)
  | read (name : Text) (binding : Binding)
  | write (name : Text) (binding : Binding)
  /-- Defines a global. -/
  | define (name : Text)
  /-- Makes a closure of a function that does all this. -/
  | closure (body : List Action)
  /-- Drops a local at the end of its block. -/
  | drop (captured : Bool)

/-- The binding leads `level` functions outward, to a slot there. -/
def Binding.LeadsTo (level slot : Nat) : Binding → Bool
  | .outer up slot' => up + 1 = level && slot' = slot
  | _ => false

mutual

/-- Whether the action, `level` functions inside another one, uses the local in a slot of that one. -/
def Action.uses (level slot : Nat) : Action → Bool
  | .read _ b | .write _ b => b.LeadsTo level slot
  | .closure body => usedByAny (level + 1) slot body
  | _ => false

/-- Whether one of the actions does. -/
def usedByAny (level slot : Nat) : List Action → Bool
  | [] => false
  | a :: as => a.uses level slot || usedByAny level slot as

end

@[simp] lemma usedByAny_nil (level slot : Nat) : usedByAny level slot [] = false := rfl

@[simp] lemma usedByAny_cons (level slot : Nat) (a : Action) (as : List Action) :
    usedByAny level slot (a :: as) = (a.uses level slot || usedByAny level slot as) := rfl

@[simp] lemma usedByAny_append (level slot : Nat) (as bs : List Action) :
    usedByAny level slot (as ++ bs) = (usedByAny level slot as || usedByAny level slot bs) := by
  induction as with
  | nil => rfl
  | cons a as ih => simp [ih, Bool.or_assoc]

lemma usedByAny_drops (level slot : Nat) (flags : List Bool) :
    usedByAny level slot (flags.map .drop) = false := by
  induction flags with
  | nil => rfl
  | cons b flags ih => simpa [Action.uses] using ih

mutual

/-- What the code of an expression does. -/
def Expr.actions (v : Visible) : Expr → List Action
  | .literal l => [.plain l.opcode]
  | .number _ => [.plain .loadConstant]
  | .string _ => [.plain .loadString]
  | .var name => [.read name (v.binding name)]
  | .assign name e => e.actions v ++ [.write name (v.binding name)]
  | .unary u e => e.actions v ++ [.plain u.opcode]
  | .binary b l r => l.actions v ++ r.actions v ++ [.plain b.opcode]
  | .and l r => l.actions v ++ .plain .jumpIfFalse :: .plain .pop :: r.actions v
  | .or l r =>
    l.actions v ++ .plain .jumpIfFalse :: .plain .jump :: .plain .pop :: r.actions v
  | .call f args => f.actions v ++ actionsOfAll v args ++ [.plain .call]

/-- What the code of several expressions does. -/
def Expr.actionsOfAll (v : Visible) : List Expr → List Action
  | [] => []
  | e :: es => e.actions v ++ actionsOfAll v es

end

mutual

/-- There are no functions in an expression. -/
lemma Expr.usedByAny_zero (v : Visible) (slot : Nat) :
    ∀ e : Expr, usedByAny 0 slot (e.actions v) = false
  | .literal _ | .number _ | .string _ => rfl
  | .var name => by cases h : v.binding name <;> simp [actions, Action.uses, Binding.LeadsTo, h]
  | .assign name e => by
    cases h : v.binding name <;>
      simp [actions, usedByAny_zero v slot e, Action.uses, Binding.LeadsTo, h]
  | .unary _ e => by simp [actions, usedByAny_zero v slot e, Action.uses]
  | .binary _ l r | .and l r | .or l r => by
    simp [actions, usedByAny_zero v slot l, usedByAny_zero v slot r, Action.uses]
  | .call f args => by
    simp [actions, usedByAny_zero v slot f, usedByAny_zero_all v slot args, Action.uses]

lemma Expr.usedByAny_zero_all (v : Visible) (slot : Nat) :
    ∀ es : List Expr, usedByAny 0 slot (actionsOfAll v es) = false
  | [] => rfl
  | e :: es => by simp [actionsOfAll, usedByAny_zero v slot e, usedByAny_zero_all v slot es]

end

/-- A local is defined by being on the stack. -/
def Visible.define (v : Visible) (name : Text) : List Action :=
  if v.top then [.define name] else []

lemma Visible.usedByAny_define (v : Visible) (name : Text) (level slot : Nat) :
    usedByAny level slot (v.define name) = false := by
  rw [define]
  split <;> rfl

/-- The end of every function. -/
def Action.leave : List Action :=
  [.plain .loadNil, .plain .ret]

/-- The condition of a loop with the jump out of it. -/
def Expr.conditionActions (v : Visible) : Option Expr → List Action
  | none => []
  | some e => e.actions v ++ [.plain .jumpIfFalse, .plain .pop]

/-- The increment of a loop with the jumps around it. -/
def Expr.incrementActions (v : Visible) : Option Expr → List Action
  | none => []
  | some e => .plain .jump :: e.actions v ++ [.plain .pop, .plain .loop]

/-- A condition is left on the stack by the jump out of a loop. -/
def Action.exit (condition : Option Expr) : List Action :=
  if condition.isSome then [.plain .pop] else []

mutual

/-- What the code of a statement does. -/
def Stmt.actions (v : Visible) : Stmt → List Action
  | .skip => []
  | .seq first rest => first.actions v ++ rest.actions (first.after v)
  -- A variable is visible behind its initializer, a function already in its own body.
  | .declareVar name e => e.actions v ++ v.define name
  | .declareFun name ps body =>
    .closure (body.actions ((v.declare name).enter ps) ++ Action.leave) :: v.define name
  | .print e | .echo e => e.actions v ++ [.plain .print]
  | .discard e => e.actions v ++ [.plain .pop]
  | .branch e yes no =>
    e.actions v ++ .plain .jumpIfFalse :: .plain .pop :: yes.actions v ++
      .plain .jump :: .plain .pop :: no.actions v
  | .whileLoop e body =>
    e.actions v ++ .plain .jumpIfFalse :: .plain .pop :: body.actions v ++
      [.plain .loop, .plain .pop]
  | .forLoop init condition increment body =>
    let v' := init.after v.block
    let turn := Expr.conditionActions v' condition ++ Expr.incrementActions v' increment ++
      body.actions v'
    init.actions v.block ++ turn ++ .plain .loop :: Action.exit condition ++
      (init.captured v.block turn).map .drop
  | .ret e => e.actions v ++ [.plain .ret]
  | .block body => body.actions v.block ++ (body.captured v.block []).map .drop

/-- For each local that a statement leaves behind, innermost first, whether a function uses it that is
declared after it in the statement or in what follows. -/
def Stmt.captured (v : Visible) (s : Stmt) (following : List Action) : List Bool :=
  match s with
  | .seq first rest =>
    rest.captured (first.after v) following ++
      first.captured v (rest.actions (first.after v) ++ following)
  | .declareVar _ _ => if v.top then [] else [usedByAny 0 (v.locals.length + 1) following]
  | .declareFun name ps body =>
    if v.top then []
    else [usedByAny 1 (v.locals.length + 1) (body.actions ((v.declare name).enter ps)) ||
      usedByAny 0 (v.locals.length + 1) following]
  | _ => []

end

/-- The function two levels inside uses the variable of the block, which is closed, and not the one at
the top. -/
example : (Stmt.block (.seq (.declareVar "a" (.literal .nil)) (.declareFun "f" [] (.declareFun "g" []
    (.discard (.var "a")))))).actions .script =
      [.plain .loadNil,
        .closure [.closure ([.read "a" (.outer 1 1), .plain .pop] ++ Action.leave), .plain .loadNil,
          .plain .ret],
        .drop false, .drop true] :=
  rfl

/-! ## Bytecode -/

/-- Where a captured variable is found: how many functions further outward, and in which slot there.
The functions are listed inside out. -/
def follow : List Prototype → Nat → Option (Nat × Nat)
  | [], _ => none
  | p :: outer, i =>
    match p.captures[i]? with
    | none => none
    | some c =>
      if c.isLocal then some (0, c.index)
      else (follow outer c.index).map fun (up, slot) => (up + 1, slot)

/-- In the innermost of these functions the name is reached where it is bound. -/
inductive Binding.ReachedBy : List Prototype → Text → Binding → Access → Prop
  | here {chain : List Prototype} {name : Text} {slot : Nat} :
      ReachedBy chain name (.here slot)
        { read := .getLocal, write := .setLocal, operand := slot }
  | outer {chain : List Prototype} {name : Text} {up slot i : Nat} :
      follow chain i = some (up, slot) →
      ReachedBy chain name (.outer up slot)
        { read := .getUpvalue, write := .setUpvalue, operand := i }
  | global {p : Prototype} {w : Chunk} {outer : List Prototype} {name : Text} {i : Nat} :
      p.chunk = some w → w.strings.get? i = some name →
      ReachedBy (p :: outer) name .global
        { read := .getGlobal, write := .setGlobal, operand := i }

mutual

/-- The instruction performs the action in the innermost of the functions. -/
inductive Action.PerformedBy : List Prototype → Action → Instruction → Prop
  | plain {chain : List Prototype} {op : Opcode} {n : Nat} :
      Action.PerformedBy chain (.plain op) ⟨op, n⟩
  | read {chain : List Prototype} {name : Text} {b : Binding} {a : Access} :
      b.ReachedBy chain name a → Action.PerformedBy chain (.read name b) ⟨a.read, a.operand⟩
  | write {chain : List Prototype} {name : Text} {b : Binding} {a : Access} :
      b.ReachedBy chain name a → Action.PerformedBy chain (.write name b) ⟨a.write, a.operand⟩
  | define {p : Prototype} {w : Chunk} {outer : List Prototype} {name : Text} {i : Nat} :
      p.chunk = some w → w.strings.get? i = some name →
      Action.PerformedBy (p :: outer) (.define name) ⟨.defineGlobal, i⟩
  | closure {p q : Prototype} {w : Chunk} {outer : List Prototype} {body : List Action} {i : Nat} :
      p.chunk = some w → w.functions[i]? = some q → Prototype.Performs (p :: outer) q body →
      Action.PerformedBy (p :: outer) (.closure body) ⟨.closure, i⟩
  | drop {chain : List Prototype} {captured : Bool} :
      Action.PerformedBy chain (.drop captured) ⟨if captured then .closeUpvalue else .pop, 0⟩

/-- The instructions perform the actions, one by one. -/
inductive Action.AllPerformedBy : List Prototype → List Action → List Instruction → Prop
  | nil {chain : List Prototype} : Action.AllPerformedBy chain [] []
  | cons {chain : List Prototype} {a : Action} {as : List Action} {i : Instruction}
      {is : List Instruction} : Action.PerformedBy chain a i → Action.AllPerformedBy chain as is →
      Action.AllPerformedBy chain (a :: as) (i :: is)

/-- The code of the function, inside of the others, consists of instructions that perform the
actions. -/
inductive Prototype.Performs : List Prototype → Prototype → List Action → Prop
  | mk {outer : List Prototype} {p : Prototype} {w : Chunk} {as : List Action}
      {is : List Instruction} : p.chunk = some w → w.Decodes 0 is →
      Action.AllPerformedBy (p :: outer) as is → Prototype.Performs outer p as

end

lemma Action.AllPerformedBy.append {chain : List Prototype} {as bs : List Action}
    {is js : List Instruction} (h : AllPerformedBy chain as is) (h' : AllPerformedBy chain bs js) :
    AllPerformedBy chain (as ++ bs) (is ++ js) := by
  induction as generalizing is with
  | nil =>
    cases h
    exact h'
  | cons a as ih =>
    cases h with
    | cons hfirst hrest => exact .cons hfirst (ih hrest)

lemma Action.PerformedBy.single {chain : List Prototype} {a : Action} {i : Instruction}
    (h : PerformedBy chain a i) : AllPerformedBy chain [a] [i] :=
  .cons h .nil

end Lox
